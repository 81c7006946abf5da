import ModuleExports.Proofs.Json.Decoding

/-!
How deep a text nests, told from its brackets alone. Main statement: the text of a value, however it
is laid out, nests as deep as the arrays and objects of the value do.
-/
namespace ModuleExports

namespace Json

/-- Where in a text a character stands. -/
inductive Place where
  | outside | quoted | escaped

/-- The greatest number of brackets that are open at once in a text that goes on where `n` of them
are open. Those within strings do not count. -/
def deepest : Place → Nat → List Char → Nat
  | _, n, [] => n
  | .outside, n, c :: cs =>
    if c = '"' then deepest .quoted n cs
    else if c = '[' ∨ c = '\x7b' then deepest .outside (n + 1) cs
    else if c = ']' ∨ c = '\x7d' then max n (deepest .outside (n - 1) cs)
    else deepest .outside n cs
  | .quoted, n, c :: cs =>
    if c = '"' then deepest .outside n cs
    else if c = '\\' then deepest .escaped n cs
    else deepest .quoted n cs
  | .escaped, n, _ :: cs => deepest .quoted n cs

/-- How deep arrays and objects nest in a text. -/
def nesting (text : String) : Nat := deepest .outside 0 text.toList

/-- Neither a bracket nor a quote. -/
def isInert (c : Char) : Bool := !(['"', '[', '\x7b', ']', '\x7d'].contains c)

section Deepest
variable {n : Nat} {c : Char} {cs rest : List Char} {p : Place} {l : Layout} {d e : Nat} {x : Json}

theorem le_deepest : n ≤ deepest p n cs := by
  fun_induction deepest p n cs with
  | case1 => exact Nat.le_refl _
  | case3 n c cs _ _ ih => exact Nat.le_trans (Nat.le_succ _) ih
  | case4 => exact Nat.le_max_left ..
  | _ => assumption

theorem deepest_inert (h : ∀ c ∈ cs, isInert c) :
    deepest .outside n (cs ++ rest) = deepest .outside n rest := by
  induction cs with
  | nil => rfl
  | cons c cs ih =>
    obtain ⟨hc, hcs⟩ := List.forall_mem_cons.1 h
    simp only [isInert, List.contains_cons, List.contains_nil, Bool.or_false, Bool.not_eq_true',
      Bool.or_eq_false_iff, beq_eq_false_iff_ne] at hc
    rw [List.cons_append, deepest, ih hcs]
    simp [hc]

theorem isInert_of_isBlank (h : isBlank c) : isInert c := by
  simp only [isBlank, Bool.or_eq_true, beq_iff_eq] at h
  rcases h with ((rfl | rfl) | rfl) | rfl <;> rfl

theorem deepest_blanks (h : ∀ c ∈ cs, isBlank c) :
    deepest .outside n (cs ++ rest) = deepest .outside n rest :=
  deepest_inert fun c hc => isInert_of_isBlank (h c hc)

theorem deepest_escape : deepest .quoted n (escape c ++ rest) = deepest .quoted n rest := by
  unfold escape
  split_ifs with hq hb hn hr ht hbs hff hlt
  · rfl
  · rfl
  · rfl
  · rfl
  · rfl
  · rfl
  · rfl
  · have hhex : ∀ k < 16, hexDigit k ≠ '"' ∧ hexDigit k ≠ '\\' := by decide
    have hhigh := hhex (c.toNat / 16) (by omega)
    have hlow := hhex (c.toNat % 16) (by omega)
    simp [deepest, hhigh, hlow]
  · simp [deepest, hq, hb]

theorem deepest_chars : deepest .quoted n (cs.flatMap escape ++ '"' :: rest) =
    deepest .outside n rest := by
  induction cs with
  | nil => rfl
  | cons c cs ih => rw [List.flatMap_cons, List.append_assoc, deepest_escape, ih]

theorem deepest_quote (s : String) :
    deepest .outside n (quote (some s) ++ rest) = deepest .outside n rest := by
  rw [State.quote_append]
  exact deepest_chars

theorem isInert_of_next? {p q : NumberPart} (h : p.next? c = some q) : isInert c := by
  cases hc : isInert c with
  | true => rfl
  | false =>
    simp only [isInert, List.contains_cons, List.contains_nil, Bool.or_false,
      Bool.not_eq_false', Bool.or_eq_true, beq_iff_eq] at hc
    rcases hc with rfl | rfl | rfl | rfl | rfl <;> cases p <;> cases h

theorem isInert_of_first? {q : NumberPart} (h : NumberPart.first? c = some q) : isInert c := by
  unfold NumberPart.first? at h
  split at h
  next hc => rw [hc]; rfl
  next => exact isInert_of_next? h

theorem isInert_of_foldlM {p q : NumberPart} (h : cs.foldlM NumberPart.next? p = some q) :
    ∀ c ∈ cs, isInert c := by
  induction cs generalizing p with
  | nil => nofun
  | cons c cs ih =>
    obtain ⟨r, hr, h⟩ := Option.bind_eq_some_iff.1 h
    exact List.forall_mem_cons.2 ⟨isInert_of_next? hr, ih h⟩

theorem isInert_of_isNumber {lexeme : List Char} (h : IsNumber lexeme) :
    ∀ c ∈ lexeme, isInert c := by
  obtain ⟨p, hp, -⟩ := h
  cases lexeme with
  | nil => nofun
  | cons c cs =>
    obtain ⟨q, hq, hcs⟩ := Option.bind_eq_some_iff.1 hp
    exact List.forall_mem_cons.2 ⟨isInert_of_first? hq, isInert_of_foldlM hcs⟩

/-- The text of a value adds the depth of the value to the brackets that are open around it. -/
def Nests (l : Layout) (d : Nat) (x : Json) : Prop := ∀ n rest,
  deepest .outside n (x.write l d ++ rest) = max (n + x.depth) (deepest .outside n rest)

theorem deepest_writeItems {xs : List Json} (h : ∀ x ∈ xs, Nests l d x) :
    deepest .outside (n + 1) (writeItems l d xs ++ (l.newline e ++ ']' :: rest)) =
      max (n + 1 + itemsDepth xs) (deepest .outside n rest) := by
  induction xs with
  | nil =>
    rw [writeItems, List.nil_append, deepest_blanks (l.newline_blank e)]
    rfl
  | cons x xs ih =>
    obtain ⟨hx, hxs⟩ := List.forall_mem_cons.1 h
    have hcomma (cs : List Char) : deepest .outside (n + 1) (',' :: cs) =
      deepest .outside (n + 1) cs := rfl
    simp only [writeItems, List.cons_append, List.append_assoc]
    rw [hcomma, deepest_blanks (l.newline_blank d), hx, ih hxs, itemsDepth]
    omega

theorem deepest_member {s : String} (hx : Nests l d x) :
    deepest .outside n (quote (some s) ++ ':' :: (l.space ++ (x.write l d ++ rest))) =
      max (n + x.depth) (deepest .outside n rest) := by
  have hcolon (cs : List Char) : deepest .outside n (':' :: cs) = deepest .outside n cs := rfl
  rw [deepest_quote, hcolon, deepest_blanks l.space_blank, hx]

theorem deepest_writeMembers {ms : List (Option String × Json)} (hkey : ∀ m ∈ ms, m.1.isSome)
    (h : ∀ m ∈ ms, Nests l d m.2) :
    deepest .outside (n + 1) (writeMembers l d ms ++ (l.newline e ++ '\x7d' :: rest)) =
      max (n + 1 + membersDepth ms) (deepest .outside n rest) := by
  induction ms with
  | nil =>
    rw [writeMembers, List.nil_append, deepest_blanks (l.newline_blank e)]
    rfl
  | cons m ms ih =>
    obtain ⟨hx, hms⟩ := List.forall_mem_cons.1 h
    obtain ⟨hm, hkeys⟩ := List.forall_mem_cons.1 hkey
    obtain ⟨k, x⟩ := m
    obtain ⟨s, rfl⟩ := Option.isSome_iff_exists.1 hm
    have hx : Nests l d x := hx
    have hcomma (cs : List Char) : deepest .outside (n + 1) (',' :: cs) =
      deepest .outside (n + 1) cs := rfl
    simp only [writeMembers, List.cons_append, List.append_assoc]
    rw [hcomma, deepest_blanks (l.newline_blank d), deepest_member hx, ih hkeys hms, membersDepth]
    omega

theorem nests (h : x.Writable) (l : Layout) (d : Nat) : Nests l d x := by
  -- A value without brackets adds nothing, as what follows is at least as deep as where it starts.
  induction h generalizing d with
  | null =>
    intro n rest
    rw [write, depth, Nat.add_zero, Nat.max_eq_right le_deepest]
    rfl
  | bool b =>
    intro n rest
    cases b with
    | _ =>
      rw [write, depth, Nat.add_zero, Nat.max_eq_right le_deepest]
      rfl
  | number h =>
    intro n rest
    rw [write, depth, Nat.add_zero, Nat.max_eq_right le_deepest,
      deepest_inert (isInert_of_isNumber h)]
  | string s =>
    intro n rest
    rw [write, depth, Nat.add_zero, Nat.max_eq_right le_deepest, deepest_quote]
  | @array items h ih =>
    intro n rest
    have hopen (cs : List Char) : deepest .outside n ('[' :: cs) =
      deepest .outside (n + 1) cs := rfl
    cases items with
    | nil =>
      rw [write]
      rfl
    | cons x xs =>
      have hx := ih x List.mem_cons_self (d + 1)
      have hxs : ∀ y ∈ xs, Nests l (d + 1) y := fun y hy => ih y (List.mem_cons_of_mem x hy) _
      simp only [write, List.cons_append, List.append_assoc, List.nil_append]
      rw [hopen, deepest_blanks (l.newline_blank _), hx, deepest_writeItems hxs, depth, itemsDepth]
      omega
  | @object members hkey h ih =>
    intro n rest
    have hopen (cs : List Char) : deepest .outside n ('\x7b' :: cs) =
      deepest .outside (n + 1) cs := rfl
    cases members with
    | nil =>
      rw [write]
      rfl
    | cons m ms =>
      obtain ⟨k, x⟩ := m
      obtain ⟨hk, hkeys⟩ := List.forall_mem_cons.1 hkey
      obtain ⟨s, rfl⟩ := Option.isSome_iff_exists.1 hk
      have hx : Nests l (d + 1) x := ih _ List.mem_cons_self _
      have hms : ∀ m ∈ ms, Nests l (d + 1) m.2 := fun m hm => ih m (List.mem_cons_of_mem _ hm) _
      simp only [write, List.cons_append, List.append_assoc, List.nil_append]
      rw [hopen, deepest_blanks (l.newline_blank _), deepest_member hx,
        deepest_writeMembers hkeys hms, depth, membersDepth]
      omega

end Deepest

/-- The text of a value nests as deep as the value. -/
theorem Writable.nesting {j : Json} (h : j.Writable) (l : Layout) :
    nesting (.ofList (j.write l 0)) = j.depth := by
  have hnests := nests h l 0 0 []
  rw [List.append_nil, Nat.zero_add, deepest, Nat.max_zero] at hnests
  rw [Json.nesting, String.toList_ofList, hnests]

end Json

end ModuleExports
