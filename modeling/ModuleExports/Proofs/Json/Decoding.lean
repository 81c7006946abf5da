import Mathlib.Logic.Basic
import ModuleExports.Json.Names
import ModuleExports.Proofs.Json.Reading

/-!
Taking back what was put into JSON. A decoder takes a value out of the JSON made of it where that
nests no deeper than the decoder may go, and nothing otherwise; each way of building decoders keeps
this. Main statement: so it is then for the text, with the levels that a text may nest.
-/
namespace ModuleExports

namespace Json

mutual

/-- How deep arrays and objects nest. -/
def depth : Json → Nat
  | .null | .bool _ | .number _ | .string _ => 0
  | .array items => itemsDepth items + 1
  | .object members => membersDepth members + 1

def itemsDepth : List Json → Nat
  | [] => 0
  | x :: xs => max x.depth (itemsDepth xs)

def membersDepth : List (Option String × Json) → Nat
  | [] => 0
  | (_, x) :: ms => max x.depth (membersDepth ms)

end

theorem itemsDepth_le {xs : List Json} {n : Nat} : itemsDepth xs ≤ n ↔ ∀ x ∈ xs, x.depth ≤ n := by
  induction xs with
  | nil => simp [itemsDepth]
  | cons x xs ih => rw [itemsDepth, Nat.max_le, ih, List.forall_mem_cons]

theorem membersDepth_le {ms : List (Option String × Json)} {n : Nat} :
    membersDepth ms ≤ n ↔ ∀ m ∈ ms, m.2.depth ≤ n := by
  induction ms with
  | nil => simp [membersDepth]
  | cons m ms ih => rw [membersDepth, Nat.max_le, ih, List.forall_mem_cons]

theorem depth_array_le {xs : List Json} {n : Nat} :
    (array xs).depth ≤ n + 1 ↔ ∀ x ∈ xs, x.depth ≤ n := by
  rw [depth, Nat.add_le_add_iff_right, itemsDepth_le]

theorem depth_fields_le {ms : List (String × Json)} {n : Nat} :
    (fields ms).depth ≤ n + 1 ↔ ∀ m ∈ ms, m.2.depth ≤ n := by
  rw [fields, depth, Nat.add_le_add_iff_right, membersDepth_le, List.forall_mem_map]

@[simp] theorem depth_text (s : String) : (text s).depth = 0 := rfl

@[simp] theorem depth_bool (b : Bool) : (bool b).depth = 0 := rfl

@[simp] theorem depth_nat (n : Nat) : (nat n).depth = 0 := rfl

theorem depth_tagged {tag : String} {x : Json} : (tagged tag x).depth = x.depth + 1 := by
  simp [tagged, depth, membersDepth]

theorem Writable.tagged {tag : String} {x : Json} (h : x.Writable) : (Json.tagged tag x).Writable :=
  .object (List.forall_mem_singleton.2 rfl) (List.forall_mem_singleton.2 h)

section Digits

theorem NumberPart.of?_append {cs ds : List Char} (h : cs ≠ []) :
    of? (cs ++ ds) = (of? cs).bind fun p => ds.foldlM next? p := by
  cases cs with
  | nil => exact absurd rfl h
  | cons c cs => simp [of?, List.foldlM_append, Option.bind_assoc]

/-- A number but zero starts with a digit that is not zero, and more digits may follow it. -/
theorem of?_toDigits {n : Nat} (h : 0 < n) : NumberPart.of? (Nat.toDigits 10 n) = some .whole := by
  induction n using Nat.strongRecOn with
  | ind n ih =>
    rw [Nat.toDigits_eq_if (by decide)]
    split
    next hlt =>
      have hdigit : ∀ n < 10, 0 < n → NumberPart.of? [n.digitChar] = some .whole := by decide
      exact hdigit n hlt h
    next hge =>
      have hdigit : ∀ d < 10, NumberPart.next? .whole d.digitChar = some .whole := by decide
      rw [NumberPart.of?_append Nat.toDigits_ne_nil, ih (n / 10) (by omega) (by omega)]
      simp [hdigit (n % 10) (Nat.mod_lt n (by decide))]

theorem isNumber_toDigits (n : Nat) : IsNumber (Nat.toDigits 10 n) := by
  cases n with
  | zero => exact ⟨.zero, rfl, rfl⟩
  | succ n => exact ⟨.whole, of?_toDigits (Nat.succ_pos n), rfl⟩

end Digits

namespace Decoder
variable {α β : Type} {d : Decoder α} {j : Json} {a : α}

/-- The decoder takes the value out of the JSON if the levels suffice, and nothing otherwise. -/
structure Reads (d : Decoder α) (j : Json) (a : α) : Prop where
  writable : j.Writable
  eq_ite : ∀ n, d n j = if j.depth ≤ n then some a else none

/-- The text of the JSON is decoded exactly where it nests no deeper than a text may. -/
theorem Reads.decode?_write (h : Reads d j a) (l : Layout) :
    decode? d (.ofList (j.write l 0)) = if j.depth ≤ maxLevels then some a else none := by
  rw [decode?, h.writable.read?, Option.bind_some, h.eq_ite]

@[simp] theorem required_some (n : Nat) : required d n (some j) = d n j := rfl

@[simp] theorem optional_some (n : Nat) : Decoder.optional d n (some j) = option d n j := rfl

@[simp] theorem defaulted_some (n : Nat) : defaulted d a n (some j) = d n j := rfl

@[simp] theorem ite_bind {p : Prop} [Decidable p] {f : α → Option β} :
    (if p then some a else none).bind f = if p then f a else none := by
  split
  next => rfl
  next => rfl

/-- Steps that succeed or fail by a test are taken all if all tests are passed, and fail
otherwise. -/
theorem mapM_eq_ite {f : α → Option β} {g : α → β} {p : α → Prop} [DecidablePred p] {xs : List α}
    (h : ∀ x ∈ xs, f x = if p x then some (g x) else none) :
    xs.mapM f = if ∀ x ∈ xs, p x then some (xs.map g) else none := by
  induction xs with
  | nil => rfl
  | cons x xs ih =>
    obtain ⟨hx, hxs⟩ := List.forall_mem_cons.1 h
    rw [List.mapM_cons, hx, ih hxs]
    simp only [Option.bind_eq_bind, ite_bind, List.forall_mem_cons, ite_and]
    rfl

theorem mapM_eq_some {f : α → Option β} {g : α → β} {xs : List α}
    (h : ∀ x ∈ xs, f x = some (g x)) : xs.mapM f = some (xs.map g) := by
  rw [mapM_eq_ite (p := fun _ => True) fun x hx => (h x hx).trans (if_pos trivial).symm]
  exact if_pos fun _ _ => trivial

theorem reads_string (s : String) : string.Reads (.text s) s := ⟨.string s, fun _ => rfl⟩

theorem reads_unit : unit.Reads .null () := ⟨.null, fun _ => rfl⟩

theorem reads_bool (b : Bool) : bool.Reads (.bool b) b := ⟨.bool b, fun _ => rfl⟩

theorem natBelow_nat {bound k : Nat} (h : k < bound) (n : Nat) :
    natBelow bound n (.nat k) = some k := by
  have hdigits : (Nat.toDigits 10 k).all Char.isDigit :=
    List.all_eq_true.2 fun c hc => Nat.isDigit_of_mem_toDigits (by decide) (by decide) hc
  have hvalue : Nat.ofDigitChars 10 (Nat.toDigits 10 k) 0 = k :=
    Nat.ofDigitChars_toDigits (by decide) (by decide)
  simp [natBelow, Json.nat, hdigits, hvalue, h]

theorem reads_word32 (w : UInt32) : word32.Reads (.nat w.toNat) w := by
  refine ⟨.number (isNumber_toDigits _), fun n => ?_⟩
  rw [word32, natBelow_nat w.toNat_lt, Option.map_some, UInt32.ofNat_toNat]
  rfl

theorem reads_word64 (w : UInt64) : word64.Reads (.nat w.toNat) w := by
  refine ⟨.number (isNumber_toDigits _), fun n => ?_⟩
  rw [word64, natBelow_nat w.toNat_lt, Option.map_some, UInt64.ofNat_toNat]
  rfl

/-- Of distinct fields each is found under its name. -/
theorem field?_of_mem {ms : List (String × Json)} (h : (ms.map Prod.fst).Nodup)
    {m : String × Json} (hm : m ∈ ms) : field? ms m.1 = some (some m.2) := by
  have hfilter : ms.filter (·.1 == m.1) = [m] := by
    induction ms with
    | nil => cases hm
    | cons k ms ih =>
      obtain ⟨hk, h⟩ := List.nodup_cons.1 h
      rcases List.mem_cons.1 hm with rfl | hm
      · have hrest : ms.filter (·.1 == m.1) = [] := List.filter_eq_nil_iff.2 fun x hx hxm =>
          hk (beq_iff_eq.1 hxm ▸ List.mem_map_of_mem hx)
        rw [List.filter_cons, if_pos (beq_self_eq_true m.1), hrest]
      · have hne : ¬ k.1 == m.1 := fun hkm => hk (beq_iff_eq.1 hkm ▸ List.mem_map_of_mem hm)
        rw [List.filter_cons, if_neg hne, ih h hm]
  rw [field?, hfilter]

theorem members?_fields (ms : List (String × Json)) :
    members? (ms.map fun m => (some m.1, m.2)) = some ms := by
  have hall : ms.mapM (fun m : String × Json => (some m.1).map (·, m.2)) = some (ms.map id) :=
    mapM_eq_some fun _ _ => rfl
  rw [List.map_id] at hall
  rw [members?, List.mapM_map]
  exact hall

theorem record_fields {names : List String} {openEnd : Bool}
    {read : Nat → List (Option Json) → Option α} {ms : List (String × Json)}
    (hnames : names = ms.map Prod.fst) (hdistinct : names.Nodup) (n : Nat) :
    Decoder.record names openEnd read (n + 1) (.fields ms) =
      read n (ms.map fun m => some m.2) := by
  subst hnames
  have hfields : (ms.map Prod.fst).mapM (field? ms) = some (ms.map fun m => some m.2) := by
    rw [List.mapM_map]
    exact mapM_eq_some fun m hm => field?_of_mem hdistinct hm
  rw [fields, Decoder.record, members?_fields]
  simp only [Option.bind_eq_bind, Option.bind_some, hfields]

namespace Reads

theorem map (h : Reads d j a) (f : α → β) :
    Decoder.Reads (fun n j => (d n j).map f) j (f a) := by
  refine ⟨h.writable, fun n => ?_⟩
  rw [h.eq_ite]
  split
  next => rfl
  next => rfl

theorem list {f : α → Json} {xs : List α} (h : ∀ x ∈ xs, Reads d (f x) x) :
    Reads (list d) (.array (xs.map f)) xs := by
  refine ⟨.array (List.forall_mem_map.2 fun x hx => (h x hx).writable), fun n => ?_⟩
  cases n with
  | zero => rfl
  | succ n =>
    have hitems : xs.mapM (d n ∘ f) =
        if ∀ x ∈ xs, (f x).depth ≤ n then some (xs.map id) else none :=
      mapM_eq_ite fun x hx => (h x hx).eq_ite n
    rw [Decoder.list, List.mapM_map, hitems, List.map_id]
    simp only [depth_array_le, List.forall_mem_map]

theorem option {f : α → Json} {o : Option α} (h : ∀ x, Reads d (f x) x) (hf : ∀ x, f x ≠ .null) :
    Reads (option d) (ofOption f o) o := by
  cases o with
  | none => exact ⟨.null, fun _ => rfl⟩
  | some x =>
    have hread := (h x).map some
    refine ⟨hread.writable, fun n => ?_⟩
    have hvalue : Decoder.option d n (f x) = (d n (f x)).map some := by
      unfold Decoder.option
      split
      next hnull => exact absurd hnull (hf x)
      next => rfl
    exact hvalue.trans (hread.eq_ite n)

/-- A record is taken out of its fields where that is so for the values of the fields. -/
theorem record {names : List String} {openEnd : Bool} {read : Nat → List (Option Json) → Option α}
    {ms : List (String × Json)} (hnames : names = ms.map Prod.fst) (hdistinct : names.Nodup)
    (hw : ∀ m ∈ ms, m.2.Writable)
    (h : ∀ n, read n (ms.map fun m => some m.2) =
      if ∀ m ∈ ms, m.2.depth ≤ n then some a else none) :
    Reads (record names openEnd read) (.fields ms) a := by
  refine ⟨.object ?_ ?_, fun n => ?_⟩
  · exact List.forall_mem_map.2 fun _ _ => rfl
  · exact List.forall_mem_map.2 hw
  · cases n with
    | zero => rfl
    | succ n =>
      rw [record_fields hnames hdistinct, h]
      simp only [depth_fields_le]

/-- A record of two fields, each taken out by a decoder of its own. -/
theorem pair {γ : Type} {first second : String} {openEnd : Bool}
    {read : Nat → List (Option Json) → Option γ} {e : Decoder β} {k : Json} {b : β}
    (mk : α → β → γ) (hdistinct : first ≠ second) (hd : Reads d j a) (he : Reads e k b)
    (hread : ∀ n, read n [some j, some k] =
      (d n j).bind fun a => (e n k).bind fun b => some (mk a b)) :
    Reads (Decoder.record [first, second] openEnd read) (.fields [(first, j), (second, k)])
      (mk a b) := by
  refine record rfl (by simpa using hdistinct) (by simp [hd.writable, he.writable]) fun n => ?_
  simp only [List.map_cons, List.map_nil, hread, hd.eq_ite, he.eq_ite, ite_bind,
    List.forall_mem_cons, ite_and]
  simp

theorem oneOf {cases : List (String × α)} {tag : String} (h : cases.lookup tag = some a) :
    Reads (oneOf cases) (.text tag) a :=
  ⟨.string tag, fun _ => h⟩

theorem choice {cases : List (String × Decoder α)} {tag : String}
    (hd : cases.lookup tag = some d) (h : Reads d j a) :
    Reads (choice cases) (.tagged tag j) a := by
  refine ⟨h.writable.tagged, fun n => ?_⟩
  cases n with
  | zero => rfl
  | succ n =>
    simp only [depth_tagged, Nat.add_le_add_iff_right, ← h.eq_ite n]
    rw [tagged, Decoder.choice, hd, Option.bind_some]

end Reads

end Decoder

end Json

end ModuleExports
