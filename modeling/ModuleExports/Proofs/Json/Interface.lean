import ModuleExports.Json.Interface
import ModuleExports.Proofs.Json.Decoding

/-!
Kept tables. Main statement: a table of published names is read back from its text, with or without
line breaks, so no two tables have one text.
-/
namespace ModuleExports
open Json Json.Decoder Std

theorem ModuleName.reads (m : ModuleName) : decoder.Reads m.toJson m := (reads_string m.text).map mk

@[simp] theorem ModuleName.depth_toJson (m : ModuleName) : m.toJson.depth = 0 := rfl

@[simp] theorem ModuleName.depth_ofOption (m : Option ModuleName) :
    (ofOption toJson m).depth = 0 := by
  cases m with
  | none => rfl
  | some m => rfl

theorem ModuleName.reads_option (m : Option ModuleName) :
    (option decoder).Reads (ofOption toJson m) m :=
  .option reads fun _ => nofun

namespace Origin

theorem reads (o : Origin) : decoder.Reads o.toJson o :=
  .pair mk (by decide) o.definedIn.reads (ModuleName.reads_option o.importedFrom) fun _ => rfl

theorem depth_toJson_le (o : Origin) : o.toJson.depth ≤ 1 :=
  depth_fields_le.2 (by simp)

end Origin

theorem Payload.reads {ns : Namespace} (p : Payload ns) : (decoder ns).Reads p.toJson p := by
  cases ns with
  | type => exact .list fun c _ => reads_string c
  | typeOperator | typeClass | value | valueOperator => exact reads_unit

theorem Payload.depth_toJson_le {ns : Namespace} (p : Payload ns) : p.toJson.depth ≤ 1 := by
  cases ns with
  | type => exact depth_array_le.2 (List.forall_mem_map.2 fun _ _ => Nat.le_refl 0)
  | typeOperator | typeClass | value | valueOperator => exact Nat.zero_le 1

theorem Entry.reads {ns : Namespace} (e : Entry ns) : decoder.Reads e.toJson e :=
  .pair mk (by decide) e.payload.reads e.origin.reads fun _ => rfl

theorem Entry.depth_toJson_le {ns : Namespace} (e : Entry ns) : e.toJson.depth ≤ 2 :=
  depth_fields_le.2 (by simp [e.payload.depth_toJson_le, e.origin.depth_toJson_le])

namespace Table
variable {ns : Namespace}

theorem ofList_toList (t : Table ns) : ExtTreeMap.ofList t.toList = t := by
  refine ExtTreeMap.ext_getElem? fun {name} => ?_
  cases h : t[name]? with
  | none =>
    refine ExtTreeMap.getElem?_ofList_of_contains_eq_false ?_
    rw [ExtTreeMap.map_fst_toList_eq_keys, ← Bool.not_eq_true, List.contains_iff_mem,
      ExtTreeMap.mem_keys, ExtTreeMap.mem_iff_isSome_getElem?, h]
    exact Bool.false_ne_true
  | some e =>
    have hmem := ExtTreeMap.mem_toList_iff_getElem?_eq_some.2 h
    exact ExtTreeMap.getElem?_ofList_of_mem compare_self ExtTreeMap.distinct_keys_toList hmem

theorem reads (t : Table ns) : decoder.Reads t.toJson t := by
  refine ⟨.object (List.forall_mem_map.2 fun _ _ => rfl) ?_, fun n => ?_⟩
  · exact List.forall_mem_map.2 (List.forall_mem_map.2 fun e _ => e.2.reads.writable)
  · cases n with
    | zero => rfl
    | succ n =>
      have hentry (e : String × Entry ns) : (do return (e.1, ← Entry.decoder n e.2.toJson)) =
          if e.2.toJson.depth ≤ n then some (id e) else none := by
        rw [e.2.reads.eq_ite]
        exact ite_bind
      have hentries := mapM_eq_ite fun e (_ : e ∈ t.toList) => hentry e
      simp only [toJson, depth_fields_le, List.forall_mem_map]
      rw [fields, decoder, members?_fields, Option.bind_eq_bind, Option.bind_some, List.mapM_map]
      change (t.toList.mapM fun e : String × Entry ns =>
        do return (e.1, ← Entry.decoder n e.2.toJson)).bind _ = _
      rw [hentries, ite_bind, List.map_id, ofList_toList]
      rfl

theorem depth_toJson_le (t : Table ns) : t.toJson.depth ≤ 3 :=
  depth_fields_le.2 (List.forall_mem_map.2 fun e _ => e.2.depth_toJson_le)

end Table

namespace Interface

theorem reads (x : Interface) : decoder.Reads x.toJson x := by
  have htypes := x.types.reads
  have htypeOperators := x.typeOperators.reads
  have htypeClasses := x.typeClasses.reads
  have hvalues := x.values.reads
  have hvalueOperators := x.valueOperators.reads
  refine .record rfl (by decide) (by simp [htypes.writable, htypeOperators.writable,
    htypeClasses.writable, hvalues.writable, hvalueOperators.writable]) fun n => ?_
  simp [htypes.eq_ite, htypeOperators.eq_ite, htypeClasses.eq_ite, hvalues.eq_ite,
    hvalueOperators.eq_ite, ite_and]

theorem depth_toJson_le (x : Interface) : x.toJson.depth ≤ 4 :=
  depth_fields_le.2 (by simp [Table.depth_toJson_le])

/-- A table is read back from its text, with or without line breaks, so tables with one text are
equal. -/
theorem decode?_text (x : Interface) : decode? decoder x.toJson.indented = some x ∧
    decode? decoder x.toJson.compact = some x ∧
    ∀ y : Interface, x.toJson.indented = y.toJson.indented → x = y := by
  have hread (y : Interface) (l : Layout) :
      decode? decoder (.ofList (y.toJson.write l 0)) = some y := by
    rw [y.reads.decode?_write l]
    exact if_pos (Nat.le_trans y.depth_toJson_le (by decide))
  refine ⟨hread x .indented, hread x .compact, fun y h => ?_⟩
  have hy := hread y .indented
  rw [← indented, ← h, indented, hread x] at hy
  exact Option.some.inj hy

end Interface

end ModuleExports
