import TinyAsm.Program.Basic

/-!
# Label tables

A table is a map, and an image holds a list of entries. This module relates the two:

* `Table.getElem?_ofList` — of several entries with one name, the last one counts;
* `Table.ofList_of_perm` — a table is made of its entries, in whatever order;
* `Table.perm_toList_ofList` — entries with distinct names are those of the table.

It also brings `Program.LabelsInRange`, which speaks of every name there may be, down to the
entries, so that it can be decided.
-/

namespace TinyAsm

namespace Table

variable {t : Table} {entries : List (String × Word)} {name : String} {position : Word}

/-- **The last entry counts**, of those that have the name. -/
theorem getElem?_ofList :
    (Std.ExtTreeMap.ofList entries compare)[name]? = entries.reverse.lookup name := by
  have hcompare (e : String × Word) : compare e.1 name = .eq ↔ (name == e.1) = true := by
    rw [Std.LawfulEqCmp.compare_eq_iff_eq, beq_iff_eq, eq_comm]
  rw [Std.ExtTreeMap.ofList_eq_insertMany_empty, Std.ExtTreeMap.getElem?_insertMany_list,
    Std.ExtTreeMap.getElem?_empty, Option.or_none, List.findSomeRev?_eq_findSome?_reverse,
    List.lookup_eq_findSome?]
  simp only [hcompare]

/-- Of entries with distinct names, looking up a name finds the one that has it. -/
theorem lookup_eq_some_iff_mem (h : (entries.map Prod.fst).Nodup) :
    entries.lookup name = some position ↔ (name, position) ∈ entries := by
  rw [List.lookup_eq_some_iff]
  constructor
  · rintro ⟨before, after, rfl, -⟩
    exact List.mem_append_right _ List.mem_cons_self
  · intro hmem
    obtain ⟨before, after, rfl⟩ := List.append_of_mem hmem
    refine ⟨before, after, rfl, fun e he => ?_⟩
    -- An earlier entry with this name would be a second one.
    rw [List.map_append, List.map_cons, List.nodup_append] at h
    have hne := h.2.2 e.1 (List.mem_map_of_mem he) name List.mem_cons_self
    exact bne_iff_ne.2 hne.symm

/-- **Entries with distinct names are those of the table**, in some order. -/
theorem perm_toList_ofList (h : (entries.map Prod.fst).Nodup) :
    entries.Perm (Std.ExtTreeMap.ofList entries compare).toList := by
  have hrev : (entries.reverse.map Prod.fst).Nodup := by
    rw [List.map_reverse]
    exact (List.reverse_perm _).nodup_iff.2 h
  have hkeys {es : List (String × Word)} (h : (es.map Prod.fst).Nodup) : es.Nodup :=
    List.Pairwise.of_map Prod.fst (fun a b hab he => hab (congrArg Prod.fst he)) h
  -- Neither list has an entry twice, and so it is enough that they have the same ones.
  refine (List.perm_ext_iff_of_nodup (hkeys h) (hkeys ?_)).2 fun e => ?_
  · rw [Std.ExtTreeMap.map_fst_toList_eq_keys]
    exact Std.ExtTreeMap.nodup_keys
  · rw [Std.ExtTreeMap.mem_toList_iff_getElem?_eq_some, getElem?_ofList,
      lookup_eq_some_iff_mem hrev, List.mem_reverse]

/-- **A table is made of its entries**, in whatever order they come. -/
theorem ofList_of_perm (h : entries.Perm t.toList) :
    Std.ExtTreeMap.ofList entries compare = t := by
  have hnodup : (entries.map Prod.fst).Nodup := by
    rw [(h.map Prod.fst).nodup_iff, Std.ExtTreeMap.map_fst_toList_eq_keys]
    exact Std.ExtTreeMap.nodup_keys
  exact Std.ExtTreeMap.ext_toList ((perm_toList_ofList hnodup).symm.trans h)

end Table

namespace Program

variable {p : Program} {size : Nat} {position : Word}

/-- A label marks the top of the program, which is `-1`, or an instruction: it goes on behind
that. -/
theorem isLabelPosition_iff :
    isLabelPosition size position = true ↔ -1 ≤ position.toInt ∧ position.toInt < size := by
  simp only [isLabelPosition, Bool.and_eq_true, decide_eq_true_eq]

/-- It is enough to look at the entries of the table. -/
theorem labelsInRange_iff :
    p.LabelsInRange ↔ ∀ e ∈ p.labels.toList, isLabelPosition p.size e.2 = true := by
  constructor
  · intro h e he
    exact h e.1 e.2 (Std.ExtTreeMap.mem_toList_iff_getElem?_eq_some.1 he)
  · intro h name position hp
    exact h (name, position) (Std.ExtTreeMap.mem_toList_iff_getElem?_eq_some.2 hp)

instance (p : Program) : Decidable p.LabelsInRange :=
  decidable_of_iff _ labelsInRange_iff.symm

end Program

end TinyAsm
