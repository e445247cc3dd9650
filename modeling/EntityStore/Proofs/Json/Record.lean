import EntityStore.Proofs.Json.Merge
import EntityStore.Schema.Codec
import EntityStore.Store.SyncRecord

/-! Reading back what was written. Where the parts of a value are read back as they were written,
so are lists of them (`ReadsBack.list`), maps from names to them (`ReadsBack.names`) and records
(`Json.record?_obj`). -/

namespace EntityStore

variable {α β δ : Type}

/-- Every value is read back from what it is written to. -/
def ReadsBack (decode : δ → Option β) (encode : β → δ) : Prop := ∀ x, decode (encode x) = some x

theorem ReadsBack.mapM {decode : δ → Option β} {encode : β → δ} (h : ReadsBack decode encode)
    (xs : List β) : (xs.map encode).mapM decode = some xs := by
  induction xs with
  | nil => rfl
  | cons x xs ih =>
    rw [List.map_cons, List.mapM_cons, h x, ih]
    rfl

theorem ReadsBack.entry {decode : δ → Option β} {encode : β → δ} (h : ReadsBack decode encode) :
    ReadsBack (fun entry : String × δ => (decode entry.2).map (entry.1, ·))
      fun entry : String × β => (entry.1, encode entry.2) := by
  intro entry
  dsimp only
  rw [h entry.2]
  rfl

/-- A map is the map of its entries. -/
theorem NameMap.ofList_toList (m : NameMap β) : Std.ExtTreeMap.ofList m.toList compare = m := by
  refine Std.ExtTreeMap.ext_getElem? fun name => ?_
  cases hget : m[name]? with
  | some v =>
    exact Std.ExtTreeMap.getElem?_ofList_of_mem Std.ReflCmp.compare_self
      Std.ExtTreeMap.distinct_keys_toList (Std.ExtTreeMap.mem_toList_iff_getElem?_eq_some.mpr hget)
  | none =>
    refine Std.ExtTreeMap.getElem?_ofList_of_contains_eq_false ?_
    rw [List.contains_eq_mem, decide_eq_false_iff_not]
    rintro hmem
    obtain ⟨⟨other, v⟩, he, rfl⟩ := List.mem_map.mp hmem
    rw [Std.ExtTreeMap.mem_toList_iff_getElem?_eq_some, hget] at he
    cases he

/-! ## Fields -/

theorem Fields.get?_append (fields fields' : Fields β) (name : String) :
    get? (fields ++ fields') name = (get? fields name).or (get? fields' name) :=
  List.lookup_append

theorem Record.ofObject?_eq_some {names : List String} (hn : names.Nodup) {fields : Fields α}
    (h : (fields.map (·.1)).Sublist names) : ofObject? names fields = some fields := by
  have hknown : fields.filter (fun entry => entry.1 ∈ names) = fields :=
    List.filter_eq_self.mpr fun entry he =>
      decide_eq_true (h.subset (List.mem_map_of_mem he))
  rw [ofObject?, hknown]
  exact if_pos (hn.sublist h)

/-- An object that has declared fields only, in their order, has them as a record. -/
theorem Json.record?_obj {names : List String} (hn : names.Nodup) {fields : Fields Json}
    (h : (fields.map (·.1)).Sublist names) : (obj fields).record? names = some fields :=
  Record.ofObject?_eq_some hn h

namespace Document

theorem ofJsonItems_eq_map (items : List Json) : ofJsonItems items = items.map ofJson := by
  induction items with
  | nil => rfl
  | cons x xs ih => rw [ofJsonItems, ih, List.map_cons]

theorem entries?_ofJsonFields (fields : List (String × Json)) : entries? (ofJsonFields fields) =
    some (fields.map fun entry => (entry.1, ofJson entry.2)) := by
  induction fields with
  | nil => rfl
  | cons entry rest ih =>
    rw [entries?] at ih
    rw [ofJsonFields, entries?, List.mapM_cons, ih]
    rfl

theorem readsBack_str : ReadsBack (fun j => str? (ofJson j)) Json.str := fun _ => rfl

end Document

namespace ReadsBack

variable {decode : Document → Option β} {encode : β → Json}

theorem list (h : ReadsBack (fun j => decode (.ofJson j)) encode) :
    ReadsBack (fun j => Document.listOf? decode (.ofJson j)) fun xs => .arr (xs.map encode) := by
  intro xs
  have hdecode : ReadsBack decode (fun x => .ofJson (encode x)) := h
  dsimp only
  rw [Document.ofJson, Document.ofJsonItems_eq_map, Document.listOf?, List.map_map]
  exact hdecode.mapM xs

/-- A map in a schema document. -/
theorem names (h : ReadsBack (fun j => decode (.ofJson j)) encode) :
    ReadsBack (fun j => NameMap.ofDocument? decode (.ofJson j)) (NameMap.toJson encode) := by
  intro m
  have hdecode : ReadsBack decode (fun x => .ofJson (encode x)) := h
  have hentries : (m.toList.map fun entry => (entry.1, Document.ofJson (encode entry.2))).mapM
      (fun entry => (decode entry.2).map (entry.1, ·)) = some m.toList :=
    hdecode.entry.mapM m.toList
  dsimp only
  rw [NameMap.toJson, Document.ofJson, NameMap.ofDocument?, Document.entries?_ofJsonFields,
    List.map_map]
  refine (congrArg (Option.bind · fun decoded => some (Std.ExtTreeMap.ofList decoded compare))
    hentries).trans ?_
  exact congrArg some m.ofList_toList

/-- A map in a snapshot. -/
theorem map {decode : Json → Option β} (h : ReadsBack decode encode) :
    ReadsBack (SyncRecord.mapOf? decode) fun m : NameMap β =>
      .obj (m.toList.map fun entry => (entry.1, encode entry.2)) := by
  intro m
  refine (congrArg (Option.bind · fun entries => some (Std.ExtTreeMap.ofList entries compare))
    (h.entry.mapM m.toList)).trans ?_
  exact congrArg some m.ofList_toList

end ReadsBack

end EntityStore
