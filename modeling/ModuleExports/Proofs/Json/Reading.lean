import Mathlib.Tactic.SplitIfs
import ModuleExports.Json.Reader

/-!
Reading back what is written. A value is read from the front of a text and handed to what is open
around it, whatever the text goes on with. Main statement: the text of a value reads as that value,
however it is laid out.
-/
namespace ModuleExports

namespace Json

/-- How far a number has been read with these characters. -/
def NumberPart.of? : List Char → Option NumberPart
  | [] => none
  | c :: cs => (first? c).bind fun p => cs.foldlM next? p

/-- The characters are those of a number. -/
def IsNumber (lexeme : List Char) : Prop := ∃ p, NumberPart.of? lexeme = some p ∧ p.isComplete

/-- Numbers are spelled as numbers, and all strings and keys have a text. -/
inductive Writable : Json → Prop
  | null : Writable .null
  | bool (b : Bool) : Writable (.bool b)
  | number {lexeme : List Char} (h : IsNumber lexeme) : Writable (.number lexeme)
  | string (s : String) : Writable (.string (some s))
  | array {items : List Json} (h : ∀ x ∈ items, Writable x) : Writable (.array items)
  | object {members : List (Option String × Json)} (hkey : ∀ m ∈ members, m.1.isSome)
      (h : ∀ m ∈ members, Writable m.2) : Writable (.object members)

namespace State
variable {s t : State} {c : Char} {cs rest : List Char} {fs : List Frame} {j : Json}

/-- What comes of reading on to the end of the text. -/
def outcome (s : State) (cs : List Char) : Option Json := (s.run cs).bind finish

theorem outcome_of_step (h : s.step c = some t) : s.outcome (c :: cs) = t.outcome cs := by
  simp [outcome, run, h]

theorem outcome_congr (h : s.step c = t.step c) : s.outcome (c :: cs) = t.outcome (c :: cs) := by
  simp [outcome, run, h]

theorem read?_ofList (cs : List Char) : read? (.ofList cs) = start.outcome cs := by
  rw [read?, String.toList_ofList, outcome]

section Blanks
variable {phase : Phase} {ws : List Char}

/-- Outside of words, numbers and strings. -/
def Phase.isBetween : Phase → Bool
  | .word .. | .number .. | .string .. => false
  | _ => true

theorem step_of_isBetween (h : Phase.isBetween phase) :
    step ⟨phase, fs⟩ c = stepBetween phase fs c := by
  cases phase with
  | word | number | string => cases h
  | _ => rfl

theorem stepBetween_blank (h : isBlank c) : stepBetween phase fs c = some ⟨phase, fs⟩ := if_pos h

theorem step_value (h : ¬ isBlank c) : step ⟨.value, fs⟩ c = stepValue fs c := by
  rw [step_of_isBetween rfl, stepBetween, if_neg h]

theorem outcome_blanks (hp : Phase.isBetween phase) (hws : ∀ c ∈ ws, isBlank c) :
    outcome ⟨phase, fs⟩ (ws ++ rest) = outcome ⟨phase, fs⟩ rest := by
  induction ws with
  | nil => rfl
  | cons w ws ih =>
    obtain ⟨hw, hws⟩ := List.forall_mem_cons.1 hws
    have hstep : step ⟨phase, fs⟩ w = some ⟨phase, fs⟩ :=
      (step_of_isBetween hp).trans (stepBetween_blank hw)
    rw [List.cons_append, outcome_of_step hstep, ih hws]

end Blanks

section Strings
variable {isKey : Bool} {p : Spelling}

theorem hexValue?_hexDigit : ∀ n < 16, hexValue? (hexDigit n) = some n := by decide

theorem unit_toNat (h : c.toNat < 0x20) : p.unit c.toNat = p.char c := by
  have hlow : ¬ (0xD800 ≤ c.toNat ∧ c.toNat < 0xDC00) := by omega
  have hhigh : ¬ (0xDC00 ≤ c.toNat ∧ c.toNat < 0xE000) := by omega
  rw [Spelling.unit, if_neg hlow, if_neg hhigh, Char.ofNat_toNat]

/-- An escaped character is read as the character. -/
theorem outcome_escape : outcome ⟨.string isKey .plain p, fs⟩ (escape c ++ rest) =
    outcome ⟨.string isKey .plain (p.char c), fs⟩ rest := by
  unfold escape
  split_ifs with hq hb hn hr ht hbs hff hlt
  · subst hq; rfl
  · subst hb; rfl
  · subst hn; rfl
  · subst hr; rfl
  · subst ht; rfl
  · subst hbs; rfl
  · subst hff; rfl
  · have hhigh := hexValue?_hexDigit (c.toNat / 16) (by omega)
    have hlow := hexValue?_hexDigit (c.toNat % 16) (by omega)
    have hsum : 16 * (c.toNat / 16) + c.toNat % 16 = c.toNat := Nat.div_add_mod ..
    rw [← unit_toNat hlt]
    have hzero : hexValue? '0' = some 0 := rfl
    simp [outcome, run, step, stepString, hzero, hhigh, hlow, hsum]
  · exact outcome_of_step (by simp [step, stepString, hq, hb, hlt])

theorem deliverText_false {s : Option String} :
    deliverText false s fs = deliver (.string s) fs := by
  cases fs with
  | nil => rfl
  | cons f fs => cases f with
    | _ => rfl

/-- The characters of a string are read up to the quote. -/
theorem outcome_chars (before : List Char) :
    outcome ⟨.string isKey .plain ⟨before.reverse, none, false⟩, fs⟩
        (cs.flatMap escape ++ '"' :: rest) =
      (deliverText isKey (some (.ofList (before ++ cs))) fs).outcome rest := by
  induction cs generalizing before with
  | nil =>
    refine outcome_of_step ?_
    simp [step, stepString, Spelling.text?]
  | cons c cs ih =>
    have hread : Spelling.char ⟨before.reverse, none, false⟩ c =
        ⟨(before ++ [c]).reverse, none, false⟩ := by
      simp [Spelling.char]
    rw [List.flatMap_cons, List.append_assoc, outcome_escape, hread, ih, List.append_assoc,
      List.singleton_append]

theorem outcome_text (s : String) :
    outcome ⟨.string isKey .plain {}, fs⟩ (s.toList.flatMap escape ++ '"' :: rest) =
      (deliverText isKey (some s) fs).outcome rest :=
  (outcome_chars []).trans (by rw [List.nil_append, String.ofList_toList])

end Strings

section Numbers
variable {part last : NumberPart} {lexeme : List Char}

/-- What may stand after a value: nothing if no array or object is open, else a blank, a comma or a
closing bracket. -/
def Follows (fs : List Frame) : List Char → Prop
  | [] => fs = []
  | c :: _ => isBlank c ∨ c = ',' ∨ c = ']' ∨ c = '\x7d'

theorem follows_blanks {ws : List Char} (hws : ∀ c ∈ ws, isBlank c) (h : Follows fs (c :: rest)) :
    Follows fs (ws ++ c :: rest) := by
  cases ws with
  | nil => exact h
  | cons w ws => exact .inl (hws w List.mem_cons_self)

theorem next?_of_follows (h : Follows fs (c :: rest)) : part.next? c = none := by
  simp only [Follows, isBlank, Bool.or_eq_true, beq_iff_eq] at h
  rcases h with (((rfl | rfl) | rfl) | rfl) | rfl | rfl | rfl <;> cases part <;> rfl

theorem step_deliver : (deliver j fs).step c =
    stepBetween (deliver j fs).phase (deliver j fs).frames c := by
  unfold deliver
  split <;> rfl

theorem outcome_number (h : cs.foldlM NumberPart.next? part = some last) :
    outcome ⟨.number part lexeme, fs⟩ (cs ++ rest) =
      outcome ⟨.number last (cs.reverse ++ lexeme), fs⟩ rest := by
  induction cs generalizing part lexeme with
  | nil =>
    obtain rfl := Option.some.inj h
    rfl
  | cons c cs ih =>
    obtain ⟨p, hp, h⟩ := Option.bind_eq_some_iff.1 h
    rw [List.cons_append, outcome_of_step (t := ⟨.number p (c :: lexeme), fs⟩) (by simp [step, hp]),
      ih h, List.reverse_cons, List.append_assoc, List.singleton_append]

/-- A number ends where it cannot go on. -/
theorem outcome_isComplete (hp : part.isComplete) (h : Follows fs rest) :
    outcome ⟨.number part lexeme, fs⟩ rest =
      (deliver (.number lexeme.reverse) fs).outcome rest := by
  cases rest with
  | nil =>
    obtain rfl : fs = [] := h
    simp [outcome, run, finish, deliver, hp]
  | cons c cs =>
    -- The character that ends the number is read as one after the value.
    refine outcome_congr ?_
    rw [step_deliver]
    simp only [step, next?_of_follows h, hp, if_true]

theorem stepValue_of_first? (h : NumberPart.first? c = some part) :
    stepValue fs c = some ⟨.number part [c], fs⟩ := by
  unfold stepValue
  split
  case h_7 => rw [h, Option.map_some]
  all_goals cases h

theorem opening_of_first? (h : NumberPart.first? c = some part) : ¬ isBlank c ∧ c ≠ ']' := by
  refine ⟨fun hc => ?_, ?_⟩
  · simp only [isBlank, Bool.or_eq_true, beq_iff_eq] at hc
    rcases hc with ((rfl | rfl) | rfl) | rfl <;> cases h
  · rintro rfl
    cases h

theorem outcome_isNumber (hn : IsNumber lexeme) (h : Follows fs rest) :
    outcome ⟨.value, fs⟩ (lexeme ++ rest) = (deliver (.number lexeme) fs).outcome rest := by
  obtain ⟨p, hp, hcomplete⟩ := hn
  cases lexeme with
  | nil => cases hp
  | cons c cs =>
    obtain ⟨q, hq, hcs⟩ := Option.bind_eq_some_iff.1 hp
    have hstep : step ⟨.value, fs⟩ c = some ⟨.number q [c], fs⟩ := by
      rw [step_value (opening_of_first? hq).1, stepValue_of_first? hq]
    rw [List.cons_append, outcome_of_step hstep, outcome_number hcs, outcome_isComplete hcomplete h,
      List.reverse_append, List.reverse_reverse, List.reverse_singleton, List.singleton_append]

end Numbers

section Values
variable {l : Layout} {d : Nat} {x : Json}

/-- The text of the value, written at the depth `d`, is read wherever a value may stand. -/
def Legible (l : Layout) (d : Nat) (x : Json) : Prop :=
  ∀ fs rest, Follows fs rest →
    outcome ⟨.value, fs⟩ (x.write l d ++ rest) = (deliver x fs).outcome rest

/-- The text of a value starts with it, and not with the end of an array. -/
theorem exists_opening (h : x.Writable) (l : Layout) (d : Nat) :
    ∃ c cs, x.write l d = c :: cs ∧ ¬ isBlank c ∧ c ≠ ']' := by
  cases h with
  | null => exact ⟨'n', _, by rw [write]; rfl, by decide, by decide⟩
  | bool b => cases b with
    | true => exact ⟨'t', _, by rw [write]; rfl, by decide, by decide⟩
    | false => exact ⟨'f', _, by rw [write]; rfl, by decide, by decide⟩
  | @number lexeme h =>
    obtain ⟨p, hp, -⟩ := h
    cases lexeme with
    | nil => cases hp
    | cons c cs =>
      obtain ⟨q, hq, -⟩ := Option.bind_eq_some_iff.1 hp
      exact ⟨c, cs, by rw [write], opening_of_first? hq⟩
  | string s => exact ⟨'"', _, by rw [write]; rfl, by decide, by decide⟩
  | @array items _ => cases items with
    | nil => exact ⟨'[', _, by rw [write], by decide, by decide⟩
    | cons x xs => exact ⟨'[', _, by rw [write]; rfl, by decide, by decide⟩
  | @object members _ _ => cases members with
    | nil => exact ⟨'\x7b', _, by rw [write], by decide, by decide⟩
    | cons m ms => exact ⟨'\x7b', _, by rw [write]; rfl, by decide, by decide⟩

theorem outcome_firstItem (h : x.Writable) :
    outcome ⟨.firstItem, fs⟩ (x.write l d ++ rest) =
      outcome ⟨.value, fs⟩ (x.write l d ++ rest) := by
  obtain ⟨c, cs, hc, hblank, hclose⟩ := exists_opening h l d
  rw [hc, List.cons_append]
  refine outcome_congr ?_
  rw [step_value hblank, step_of_isBetween rfl, stepBetween, if_neg hblank, if_neg hclose]

theorem quote_append (s : String) :
    quote (some s) ++ rest = '"' :: (s.toList.flatMap escape ++ '"' :: rest) := by
  change '"' :: s.toList.flatMap escape ++ ['"'] ++ rest = _
  rw [List.cons_append, List.cons_append, List.append_assoc, List.singleton_append]

theorem outcome_string (s : String) : outcome ⟨.value, fs⟩ (quote (some s) ++ rest) =
    (deliver (.string (some s)) fs).outcome rest := by
  have hopen : step ⟨.value, fs⟩ '"' = some ⟨.string false .plain {}, fs⟩ := rfl
  rw [quote_append, outcome_of_step hopen, outcome_text, deliverText_false]

/-- A key is read where the object has just begun or goes on after a comma. -/
theorem outcome_key {phase : Phase} (hp : phase = .firstKey ∨ phase = .key) (s : String)
    {ms : List (Option String × Json)} :
    outcome ⟨phase, .object ms :: fs⟩ (quote (some s) ++ rest) =
      outcome ⟨.colon, .member ms (some s) :: fs⟩ rest := by
  have hstep : step ⟨phase, .object ms :: fs⟩ '"' =
      some ⟨.string true .plain {}, .object ms :: fs⟩ := by
    rcases hp with rfl | rfl <;> rfl
  rw [quote_append, outcome_of_step hstep, outcome_text]
  rfl

theorem follows_writeItems {xs : List Json} {e : Nat} :
    Follows fs (writeItems l d xs ++ (l.newline e ++ ']' :: rest)) := by
  cases xs with
  | nil =>
    rw [writeItems, List.nil_append]
    exact follows_blanks (l.newline_blank e) (.inr (.inr (.inl rfl)))
  | cons x xs =>
    rw [writeItems]
    exact .inr (.inl rfl)

theorem outcome_writeItems (before : List Json) {xs : List Json} {e : Nat}
    (h : ∀ x ∈ xs, Legible l d x) :
    outcome ⟨.next, .array before.reverse :: fs⟩
        (writeItems l d xs ++ (l.newline e ++ ']' :: rest)) =
      (deliver (.array (before ++ xs)) fs).outcome rest := by
  induction xs generalizing before with
  | nil =>
    have hclose : step ⟨.next, .array before.reverse :: fs⟩ ']' =
        some (deliver (.array before.reverse.reverse) fs) := rfl
    rw [writeItems, List.nil_append, outcome_blanks rfl (l.newline_blank e),
      outcome_of_step hclose, List.reverse_reverse, List.append_nil]
  | cons x xs ih =>
    obtain ⟨hx, hxs⟩ := List.forall_mem_cons.1 h
    have hcomma : step ⟨.next, .array before.reverse :: fs⟩ ',' =
        some ⟨.value, .array before.reverse :: fs⟩ := rfl
    have hdeliver : deliver x (.array before.reverse :: fs) =
        ⟨.next, .array (before ++ [x]).reverse :: fs⟩ := by
      rw [deliver, List.reverse_append, List.reverse_singleton, List.singleton_append]
    simp only [writeItems, List.cons_append, List.append_assoc]
    rw [outcome_of_step hcomma, outcome_blanks rfl (l.newline_blank d), hx _ _ follows_writeItems,
      hdeliver, ih _ hxs, List.append_assoc, List.singleton_append]

theorem follows_writeMembers {ms : List (Option String × Json)} {e : Nat} :
    Follows fs (writeMembers l d ms ++ (l.newline e ++ '\x7d' :: rest)) := by
  cases ms with
  | nil =>
    rw [writeMembers, List.nil_append]
    exact follows_blanks (l.newline_blank e) (.inr (.inr (.inr rfl)))
  | cons m ms =>
    rw [writeMembers]
    exact .inr (.inl rfl)

/-- After a key comes its value, and then the rest of the object. -/
theorem outcome_member (before : List (Option String × Json)) {ms : List (Option String × Json)}
    {s : String} {e : Nat} (hx : Legible l d x) :
    outcome ⟨.colon, .member before.reverse (some s) :: fs⟩ (':' :: (l.space ++
        (x.write l d ++ (writeMembers l d ms ++ (l.newline e ++ '\x7d' :: rest))))) =
      outcome ⟨.next, .object (before ++ [(some s, x)]).reverse :: fs⟩
        (writeMembers l d ms ++ (l.newline e ++ '\x7d' :: rest)) := by
  have hcolon : step ⟨.colon, .member before.reverse (some s) :: fs⟩ ':' =
      some ⟨.value, .member before.reverse (some s) :: fs⟩ := rfl
  rw [outcome_of_step hcolon, outcome_blanks rfl l.space_blank, hx _ _ follows_writeMembers,
    deliver, List.reverse_append, List.reverse_singleton, List.singleton_append]

theorem outcome_writeMembers (before : List (Option String × Json))
    {ms : List (Option String × Json)} {e : Nat} (hkey : ∀ m ∈ ms, m.1.isSome)
    (h : ∀ m ∈ ms, Legible l d m.2) :
    outcome ⟨.next, .object before.reverse :: fs⟩
        (writeMembers l d ms ++ (l.newline e ++ '\x7d' :: rest)) =
      (deliver (.object (before ++ ms)) fs).outcome rest := by
  induction ms generalizing before with
  | nil =>
    have hclose : step ⟨.next, .object before.reverse :: fs⟩ '\x7d' =
        some (deliver (.object before.reverse.reverse) fs) := rfl
    rw [writeMembers, List.nil_append, outcome_blanks rfl (l.newline_blank e),
      outcome_of_step hclose, List.reverse_reverse, List.append_nil]
  | cons m ms ih =>
    obtain ⟨hx, hms⟩ := List.forall_mem_cons.1 h
    obtain ⟨hm, hkeys⟩ := List.forall_mem_cons.1 hkey
    obtain ⟨k, x⟩ := m
    obtain ⟨s, rfl⟩ := Option.isSome_iff_exists.1 hm
    have hcomma : step ⟨.next, .object before.reverse :: fs⟩ ',' =
        some ⟨.key, .object before.reverse :: fs⟩ := rfl
    simp only [writeMembers, List.cons_append, List.append_assoc]
    rw [outcome_of_step hcomma, outcome_blanks rfl (l.newline_blank d), outcome_key (.inr rfl),
      outcome_member _ hx, ih _ hkeys hms, List.append_assoc, List.singleton_append]

/-- Every value is read back, at any depth and in any layout. -/
theorem legible (h : x.Writable) (l : Layout) (d : Nat) : Legible l d x := by
  -- By induction on the value, for any frames around it: an array or an object adds one of its own.
  induction h generalizing d with
  | null =>
    intro fs rest hrest
    rw [write]
    rfl
  | bool b =>
    intro fs rest hrest
    cases b with
    | true => rw [write]; rfl
    | false => rw [write]; rfl
  | number h =>
    intro fs rest hrest
    rw [write]
    exact outcome_isNumber h hrest
  | string s =>
    intro fs rest hrest
    rw [write]
    exact outcome_string s
  | @array items h ih =>
    intro fs rest hrest
    cases items with
    | nil => rw [write]; rfl
    | cons x xs =>
      have hopen : step ⟨.value, fs⟩ '[' = some ⟨.firstItem, .array [] :: fs⟩ := rfl
      have hx := ih x List.mem_cons_self (d + 1)
      have hxs : ∀ y ∈ xs, Legible l (d + 1) y := fun y hy => ih y (List.mem_cons_of_mem x hy) _
      simp only [write, List.cons_append, List.append_assoc, List.nil_append]
      rw [outcome_of_step hopen, outcome_blanks rfl (l.newline_blank _),
        outcome_firstItem (h x List.mem_cons_self), hx _ _ follows_writeItems]
      exact outcome_writeItems [x] hxs
  | @object members hkey h ih =>
    intro fs rest hrest
    cases members with
    | nil => rw [write]; rfl
    | cons m ms =>
      obtain ⟨k, x⟩ := m
      obtain ⟨hk, hkeys⟩ := List.forall_mem_cons.1 hkey
      obtain ⟨s, rfl⟩ := Option.isSome_iff_exists.1 hk
      have hopen : step ⟨.value, fs⟩ '\x7b' = some ⟨.firstKey, .object [] :: fs⟩ := rfl
      have hx : Legible l (d + 1) x := ih _ List.mem_cons_self _
      have hms : ∀ m ∈ ms, Legible l (d + 1) m.2 := fun m hm => ih m (List.mem_cons_of_mem _ hm) _
      simp only [write, List.cons_append, List.append_assoc, List.nil_append]
      rw [outcome_of_step hopen, outcome_blanks rfl (l.newline_blank _), outcome_key (.inl rfl)]
      exact (outcome_member [] hx).trans (outcome_writeMembers [(some s, x)] hkeys hms)

end Values

end State

/-- The text of a value reads as that value, however it is laid out. -/
theorem Writable.read? {j : Json} (h : j.Writable) (l : Layout) :
    read? (.ofList (j.write l 0)) = some j := by
  have hread := State.legible h l 0 [] [] rfl
  rw [List.append_nil] at hread
  rw [State.read?_ofList, State.start, hread]
  rfl

end Json

end ModuleExports
