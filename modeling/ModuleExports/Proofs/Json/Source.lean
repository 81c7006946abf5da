import ModuleExports.Json.Source
import ModuleExports.Proofs.Json.Interface
import ModuleExports.Proofs.Json.Nesting

/-!
Kept sources. Main statement: declarations, export refs, import records, names, origins and settings
are read back from their text as they were where it nests as deep as a text may, and not at all
otherwise; imports have a text where no table holds a name, and are read back from it.
-/
namespace ModuleExports
open Json Json.Decoder Std

theorem QualifiedName.reads (q : QualifiedName) : decoder.Reads q.toJson q :=
  .pair mk (by decide) (ModuleName.reads_option q.module) (reads_string q.name) fun _ => rfl

theorem QualifiedName.depth_toJson_le (q : QualifiedName) : q.toJson.depth ≤ 1 :=
  depth_fields_le.2 (by simp)

theorem Position.reads (p : Position) : decoder.Reads p.toJson p :=
  .pair mk (by decide) (reads_word32 p.line) (reads_word32 p.column) fun _ => rfl

theorem Position.depth_toJson_le (p : Position) : p.toJson.depth ≤ 1 :=
  depth_fields_le.2 (by simp)

theorem Span.reads (s : Span) : decoder.Reads s.toJson s :=
  .pair mk (by decide) s.start.reads s.stop.reads fun _ => rfl

theorem Span.depth_toJson_le (s : Span) : s.toJson.depth ≤ 2 :=
  depth_fields_le.2 (by simp [Position.depth_toJson_le])

theorem ClassMember.reads (m : ClassMember) : decoder.Reads m.toJson m :=
  .pair mk (by decide) (reads_string m.name) m.span.reads fun _ => rfl

theorem Json.Decoder.Reads.single {α : Type} (field : String) (f : String → α) (value : String) :
    Reads (Decoder.single field f) (.single field value) (f value) := by
  have hvalue := reads_string value
  refine .record rfl (by simp) (by simp [hvalue.writable]) fun n => ?_
  simp [hvalue.eq_ite]

theorem ExportItem.reads (i : ExportItem) : decoder.Reads i.toJson i := by
  cases i with
  | type name constructors =>
    have hconstructors := Reads.option (o := constructors)
      (fun cs => Reads.list fun c _ => reads_string c) fun _ => nofun
    exact .choice rfl (.pair type (by decide) (reads_string name) hconstructors fun _ => rfl)
  | typeOperator name => exact .choice rfl ((reads_string name).map typeOperator)
  | typeClass name => exact .choice rfl ((reads_string name).map typeClass)
  | value name => exact .choice rfl ((reads_string name).map value)
  | valueOperator name => exact .choice rfl ((reads_string name).map valueOperator)
  | module m => exact .choice rfl ((reads_string m.text).map (module ⟨·⟩))

theorem ExportItem.depth_toJson_le (i : ExportItem) : i.toJson.depth ≤ 3 := by
  cases i with
  | type name constructors =>
    have hconstructors : (ofOption (fun cs => array (cs.map text)) constructors).depth ≤ 1 := by
      cases constructors with
      | none => exact Nat.zero_le 1
      | some cs => exact depth_array_le.2 (by simp)
    rw [toJson, depth_tagged]
    exact Nat.succ_le_succ (depth_fields_le.2 (by simp [hconstructors]))
  | typeOperator | typeClass | value | valueOperator | module => simp [toJson, depth_tagged]

theorem ExportRef.reads (r : ExportRef) : decoder.Reads r.toJson r :=
  .pair mk (by decide) r.span.reads r.item.reads fun _ => rfl

theorem ExportRef.depth_toJson_le (r : ExportRef) : r.toJson.depth ≤ 4 := by
  have hspan := Nat.le_succ_of_le r.span.depth_toJson_le
  exact depth_fields_le.2 (by simp [hspan, r.item.depth_toJson_le])

theorem ImportStyle.reads (s : ImportStyle) : decoder.Reads s.toJson s := by
  cases s with
  | implicit | explicit | declared | builtin => exact .oneOf rfl

theorem ImportRecord.reads (r : ImportRecord) : decoder.Reads r.toJson r := by
  have hmodule := r.module.reads
  have hname := reads_string r.name
  have hhome := r.home.reads
  have hspan := r.span.reads
  have hstyle := r.style.reads
  refine .record rfl (by decide) (by simp [hmodule.writable, hname.writable, hhome.writable,
    hspan.writable, hstyle.writable]) fun n => ?_
  simp [hmodule.eq_ite, hname.eq_ite, hhome.eq_ite, hspan.eq_ite, hstyle.eq_ite, ite_and]

theorem ImportRecord.depth_toJson_le (r : ImportRecord) : r.toJson.depth ≤ 3 :=
  depth_fields_le.2 (by simp [r.span.depth_toJson_le, ImportStyle.toJson])

theorem Settings.reads (c : Settings) : decoder.Reads c.toJson c := by
  have hduplicates := reads_bool c.reportDuplicateRefs
  have hshadowing := reads_bool c.reportShadowing
  have hparallel := reads_word64 c.maxParallel
  refine .record rfl (by decide) (by simp [hduplicates.writable, hshadowing.writable,
    hparallel.writable]) fun n => ?_
  simp [hduplicates.eq_ite, hshadowing.eq_ite, hparallel.eq_ite]

theorem Settings.depth_toJson_le (c : Settings) : c.toJson.depth ≤ 1 :=
  depth_fields_le.2 (by simp)

namespace Declaration

theorem reads_dataDecoder (name : String) (constructors : List String) :
    dataDecoder.Reads (.fields [("name", .text name),
      ("constructors", .array (constructors.map .text))]) (data name constructors) :=
  .pair data (by decide) (reads_string name) (.list fun c _ => reads_string c) fun _ => rfl

theorem reads_classDecoder (name : String) (members : List ClassMember) :
    classDecoder.Reads (.fields [("name", .text name),
      ("members", .array (members.map ClassMember.toJson))]) (typeClass name members) :=
  .pair typeClass (by decide) (reads_string name) (.list fun m _ => m.reads) fun _ => rfl

theorem decoder_tagged {tag : String} (h : tag ≠ "BindingGroup") (n : Nat) (j : Json) :
    decoder n (.tagged tag j) = choice cases n (.tagged tag j) := by
  unfold decoder
  split
  next heq =>
    simp [tagged] at heq
    exact absurd heq.1 h
  next => rfl

theorem reads_case {tag : String} {d : Decoder Declaration} {j : Json} {a : Declaration}
    (htag : tag ≠ "BindingGroup") (hd : cases.lookup tag = some d) (h : d.Reads j a) :
    decoder.Reads (.tagged tag j) a := by
  have hchoice := Reads.choice hd h
  refine ⟨hchoice.writable, fun n => ?_⟩
  rw [decoder_tagged htag, hchoice.eq_ite]

theorem listToJson_eq_map (ds : List Declaration) : listToJson ds = ds.map toJson := by
  induction ds with
  | nil => rw [listToJson, List.map_nil]
  | cons d ds ih => rw [listToJson, ih, List.map_cons]

/-- A group takes two levels, one for its tag and one for its list. -/
theorem reads_group {members : List Declaration} (h : ∀ d ∈ members, decoder.Reads d.toJson d) :
    decoder.Reads (group members).toJson (group members) := by
  rw [toJson, listToJson_eq_map]
  have hitems : ∀ j ∈ members.map toJson, j.Writable :=
    List.forall_mem_map.2 fun d hd => (h d hd).writable
  refine ⟨(Writable.array hitems).tagged, fun n => ?_⟩
  -- With less than two levels left no group can be taken out, whatever its members.
  match n with
  | 0 => rfl
  | 1 => rfl
  | n + 2 =>
    have hmembers : members.mapM (decoder n ∘ toJson) =
        if ∀ d ∈ members, d.toJson.depth ≤ n then some (members.map id) else none :=
      mapM_eq_ite fun d hd => (h d hd).eq_ite n
    simp only [depth_tagged, Nat.add_le_add_iff_right, depth_array_le, List.forall_mem_map]
    rw [tagged, decoder, List.mapM_map, hmembers, Option.bind_eq_bind, ite_bind, List.map_id]
    rfl

mutual

theorem reads : (d : Declaration) → decoder.Reads d.toJson d
  | .data name constructors => by
    rw [toJson]
    exact reads_case (by decide) rfl (reads_dataDecoder name constructors)
  | .typeClass name members => by
    rw [toJson]
    exact reads_case (by decide) rfl (reads_classDecoder name members)
  | .group members => reads_group (reads_all members)
  | .typeSynonym name => by
    rw [toJson]
    exact reads_case (by decide) rfl (.single "name" typeSynonym name)
  | .foreignType name => by
    rw [toJson]
    exact reads_case (by decide) rfl (.single "name" foreignType name)
  | .value name => by
    rw [toJson]
    exact reads_case (by decide) rfl (.single "name" value name)
  | .foreignValue name => by
    rw [toJson]
    exact reads_case (by decide) rfl (.single "name" foreignValue name)
  | .valueFixity operator => by
    rw [toJson]
    exact reads_case (by decide) rfl (.single "operator" valueFixity operator)
  | .typeFixity operator => by
    rw [toJson]
    exact reads_case (by decide) rfl (.single "operator" typeFixity operator)
  | .typeInstance name => by
    rw [toJson]
    exact reads_case (by decide) rfl (.single "name" typeInstance name)
  | .kindSignature name => by
    rw [toJson]
    exact reads_case (by decide) rfl (.single "name" kindSignature name)

theorem reads_all : (ds : List Declaration) → ∀ d ∈ ds, decoder.Reads d.toJson d
  | [] => nofun
  | d :: ds => List.forall_mem_cons.2 ⟨reads d, reads_all ds⟩

end

/-- There is no bound on the depth of groups within groups. -/
theorem exists_lt_depth (n : Nat) : ∃ d : Declaration, n < d.toJson.depth := by
  induction n with
  | zero => exact ⟨group [], by decide⟩
  | succ n ih =>
    obtain ⟨d, hd⟩ := ih
    refine ⟨group [d], ?_⟩
    simp only [toJson, listToJson, depth_tagged, depth, itemsDepth]
    omega

end Declaration

namespace ImportTable

/-- The keys of a table are records, so none is left to be written but the empty one. -/
theorem toJson?_eq_some_iff {t : ImportTable} {j : Json} :
    t.toJson? = some j ↔ t = ∅ ∧ j = .object [] := by
  rw [← ExtTreeMap.toList_eq_nil_iff, toJson?]
  cases t.toList with
  | nil => simp [fields, eq_comm]
  | cons e es =>
    have hkey : e.1.toJson.key? = none := rfl
    simp [hkey]

theorem reads_empty : decoder.Reads (.object []) ∅ := by
  refine ⟨.object nofun nofun, fun n => ?_⟩
  cases n with
  | zero => rfl
  | succ n => rfl

end ImportTable

namespace Imports

theorem toJson?_eq_some_iff {i : Imports} {j : Json} : i.toJson? = some j ↔
    (i.types = ∅ ∧ i.typeOperators = ∅ ∧ i.dataConstructors = ∅ ∧ i.typeClasses = ∅ ∧
      i.values = ∅ ∧ i.valueOperators = ∅) ∧
    j = .fields [("types", .object []), ("type_operators", .object []),
      ("data_constructors", .object []), ("type_classes", .object []), ("values", .object []),
      ("value_operators", .object []),
      ("unqualified_modules", .array (i.unqualified.toList.map ModuleName.toJson))] := by
  simp only [toJson?, Option.bind_eq_bind, Option.bind_eq_some_iff,
    ImportTable.toJson?_eq_some_iff]
  constructor
  · rintro ⟨_, ⟨htypes, rfl⟩, _, ⟨htypeOperators, rfl⟩, _, ⟨hdataConstructors, rfl⟩, _,
      ⟨htypeClasses, rfl⟩, _, ⟨hvalues, rfl⟩, _, ⟨hvalueOperators, rfl⟩, h⟩
    exact ⟨⟨htypes, htypeOperators, hdataConstructors, htypeClasses, hvalues, hvalueOperators⟩,
      (Option.some.inj h).symm⟩
  · rintro ⟨⟨htypes, htypeOperators, hdataConstructors, htypeClasses, hvalues, hvalueOperators⟩,
      rfl⟩
    exact ⟨_, ⟨htypes, rfl⟩, _, ⟨htypeOperators, rfl⟩, _, ⟨hdataConstructors, rfl⟩, _,
      ⟨htypeClasses, rfl⟩, _, ⟨hvalues, rfl⟩, _, ⟨hvalueOperators, rfl⟩, rfl⟩

/-- Imports have a text exactly where none of their tables holds a name. -/
theorem exists_toJson?_iff (i : Imports) : (∃ j, i.toJson? = some j) ↔
    i.types = ∅ ∧ i.typeOperators = ∅ ∧ i.dataConstructors = ∅ ∧ i.typeClasses = ∅ ∧
      i.values = ∅ ∧ i.valueOperators = ∅ := by
  simp only [toJson?_eq_some_iff, exists_and_left, exists_eq, and_true]

theorem reads (i : Imports) {j : Json} (h : i.toJson? = some j) : decoder.Reads j i := by
  obtain ⟨hempty, rfl⟩ := toJson?_eq_some_iff.1 h
  have hnames := Reads.list fun m (_ : m ∈ i.unqualified.toList) => m.reads
  have htable := ImportTable.reads_empty
  have hset : ExtTreeSet.ofList i.unqualified.toList = i.unqualified :=
    ExtTreeSet.ext_mem fun m => by simp [ExtTreeSet.mem_ofList, ExtTreeSet.mem_toList]
  have hi : { unqualified := i.unqualified : Imports } = i := by
    cases i
    simp_all
  refine .record rfl (by decide) (by simp [hnames.writable, htable.writable]) fun n => ?_
  by_cases hn : (object []).depth ≤ n
  · simp [hnames.eq_ite, htable.eq_ite, hn, hset, hi]
  · simp [htable.eq_ite, hn]

theorem depth_toJson?_le (i : Imports) {j : Json} (h : i.toJson? = some j) : j.depth ≤ 2 := by
  obtain ⟨-, rfl⟩ := toJson?_eq_some_iff.1 h
  have hnames : (array (i.unqualified.toList.map ModuleName.toJson)).depth ≤ 1 :=
    depth_array_le.2 (by simp)
  have htable : (object []).depth ≤ 1 := Nat.le_refl 1
  exact depth_fields_le.2 (by simp [hnames, htable])

end Imports

namespace Json
variable {α : Type} {toJson : α → Json} {d : Decoder α} {j : Json} {a : α}

theorem Decoder.Reads.decode?_compact (h : d.Reads j a) :
    decode? d j.compact = if nesting j.compact ≤ 127 then some a else none := by
  rw [compact, h.decode?_write .compact, h.writable.nesting .compact, maxLevels]

/-- A value is read back from its text as it was if that nests at most 127 deep, and is refused
otherwise. -/
def ReadsBack (toJson : α → Json) (d : Decoder α) : Prop :=
  ∀ a, decode? d (toJson a).compact = if nesting (toJson a).compact ≤ 127 then some a else none

/-- No text of a value nests too deep. -/
def Shallow (toJson : α → Json) : Prop := ∀ a, nesting (toJson a).compact ≤ 127

theorem ReadsBack.of_reads (h : ∀ a, d.Reads (toJson a) a) : ReadsBack toJson d :=
  fun a => (h a).decode?_compact

theorem Shallow.of_reads (h : ∀ a, d.Reads (toJson a) a) (hdepth : ∀ a, (toJson a).depth ≤ 127) :
    Shallow toJson := by
  intro a
  rw [compact, (h a).writable.nesting .compact]
  exact hdepth a

end Json

/-- Declarations, which nest without bound, and export refs and their items, import records, names,
origins and settings, which do not, are read back from their texts as far as these may nest; and so
are imports where they have a text, which they do where no table holds a name. -/
theorem readsBack_sources :
    (ReadsBack Declaration.toJson Declaration.decoder ∧
      ∀ n, ∃ d : Declaration, n < nesting d.toJson.compact) ∧
    (ReadsBack ExportRef.toJson ExportRef.decoder ∧ Shallow ExportRef.toJson) ∧
    (ReadsBack ExportItem.toJson ExportItem.decoder ∧ Shallow ExportItem.toJson) ∧
    (ReadsBack ImportRecord.toJson ImportRecord.decoder ∧ Shallow ImportRecord.toJson) ∧
    (ReadsBack QualifiedName.toJson QualifiedName.decoder ∧ Shallow QualifiedName.toJson) ∧
    (ReadsBack Origin.toJson Origin.decoder ∧ Shallow Origin.toJson) ∧
    (ReadsBack Settings.toJson Settings.decoder ∧ Shallow Settings.toJson) ∧
    ∀ i : Imports, ((∃ j, i.toJson? = some j) ↔ i.types = ∅ ∧ i.typeOperators = ∅ ∧
      i.dataConstructors = ∅ ∧ i.typeClasses = ∅ ∧ i.values = ∅ ∧ i.valueOperators = ∅) ∧
      ∀ j, i.toJson? = some j → decode? Imports.decoder j.compact = some i := by
  refine ⟨⟨.of_reads Declaration.reads, fun n => ?_⟩,
    ⟨.of_reads ExportRef.reads, .of_reads ExportRef.reads fun r => ?_⟩,
    ⟨.of_reads ExportItem.reads, .of_reads ExportItem.reads fun i => ?_⟩,
    ⟨.of_reads ImportRecord.reads, .of_reads ImportRecord.reads fun r => ?_⟩,
    ⟨.of_reads QualifiedName.reads, .of_reads QualifiedName.reads fun q => ?_⟩,
    ⟨.of_reads Origin.reads, .of_reads Origin.reads fun o => ?_⟩,
    ⟨.of_reads Settings.reads, .of_reads Settings.reads fun c => ?_⟩,
    fun i => ⟨i.exists_toJson?_iff, fun j h => ?_⟩⟩
  · obtain ⟨d, hd⟩ := Declaration.exists_lt_depth n
    exact ⟨d, (d.reads.writable.nesting .compact).symm ▸ hd⟩
  · exact Nat.le_trans r.depth_toJson_le (by decide)
  · exact Nat.le_trans i.depth_toJson_le (by decide)
  · exact Nat.le_trans r.depth_toJson_le (by decide)
  · exact Nat.le_trans q.depth_toJson_le (by decide)
  · exact Nat.le_trans o.depth_toJson_le (by decide)
  · exact Nat.le_trans c.depth_toJson_le (by decide)
  · rw [compact, (i.reads h).decode?_write .compact]
    exact if_pos (Nat.le_trans (i.depth_toJson?_le h) (by decide))

end ModuleExports
