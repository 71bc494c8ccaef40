import Mathlib
import OpenQasm.Table

/-!
# Tables as lists of entries

A table finds exactly its entries as long as its keys are distinct, which writing preserves. A new
key goes to the end, so a list of entries with distinct keys is the list of its table. Of several
tables written one after another, the last that has a key decides what is found there. The order of
a record rearranges the entries and leaves none out.
-/
namespace OpenQasm.Table

/-- A key that equals none before it goes to the end. -/
theorem insertEntry_of_ne {κ ν : Type} [BEq κ] {entries : List (κ × ν)} {k : κ}
    (h : ∀ e ∈ entries, (k == e.1) = false) (v : ν) :
    insertEntry k v entries = entries ++ [(k, v)] := by
  induction entries with
  | nil => rfl
  | cons e entries ih =>
      have hrest := ih (fun e he => h e (.tail _ he))
      rw [insertEntry, h e (.head _), hrest]
      rfl

variable {κ ν : Type} [BEq κ] [LawfulBEq κ]

theorem get?_eq_none_iff {t : Table κ ν} {k : κ} : t.get? k = none ↔ k ∉ t.keys := by
  unfold get? keys
  rw [List.lookup_eq_none_iff]
  constructor
  · intro h hk
    obtain ⟨e, he, rfl⟩ := List.mem_map.mp hk
    simpa using h e he
  · intro h e he
    rw [bne_iff_ne]
    rintro rfl
    exact h (List.mem_map_of_mem he)

theorem contains_iff {t : Table κ ν} {k : κ} : t.contains k = true ↔ k ∈ t.keys := by
  unfold contains
  rw [Option.isSome_iff_ne_none, ne_eq, get?_eq_none_iff, not_not]

theorem mem_keys_iff {t : Table κ ν} {k : κ} : k ∈ t.keys ↔ ∃ v, t.get? k = some v := by
  rw [← contains_iff, contains, Option.isSome_iff_exists]

theorem mem_of_get? {t : Table κ ν} {k : κ} {v : ν} (h : t.get? k = some v) :
    (k, v) ∈ t.toList := by
  obtain ⟨before, after, heq, -⟩ := List.lookup_eq_some_iff.mp h
  rw [heq]
  exact List.mem_append_right _ List.mem_cons_self

theorem get?_of_mem {t : Table κ ν} {k : κ} {v : ν} (hkeys : t.keys.Nodup)
    (h : (k, v) ∈ t.toList) : t.get? k = some v := by
  obtain ⟨entries⟩ := t
  change entries.lookup k = some v
  change (entries.map Prod.fst).Nodup at hkeys
  induction entries with
  | nil => cases h
  | cons e entries ih =>
      obtain ⟨k', v'⟩ := e
      rw [List.map_cons, List.nodup_cons] at hkeys
      rcases List.mem_cons.mp h with heq | hmem
      · cases heq
        simp
      · have hne : k ≠ k' := by
          rintro rfl
          exact hkeys.1 (List.mem_map.mpr ⟨(k, v), hmem, rfl⟩)
        rw [List.lookup_cons, beq_false_of_ne hne]
        exact ih hmem hkeys.2

theorem insertEntry_of_not_mem {entries : List (κ × ν)} {k : κ} (h : k ∉ entries.map Prod.fst)
    (v : ν) : insertEntry k v entries = entries ++ [(k, v)] := by
  refine insertEntry_of_ne (fun e he => beq_eq_false_iff_ne.mpr ?_) v
  rintro rfl
  exact h (List.mem_map_of_mem he)

theorem toList_insert_of_not_mem {t : Table κ ν} {k : κ} (h : k ∉ t.keys) (v : ν) :
    (t.insert k v).toList = t.toList ++ [(k, v)] :=
  insertEntry_of_not_mem h v

theorem keys_insert_of_not_mem {t : Table κ ν} {k : κ} (h : k ∉ t.keys) (v : ν) :
    (t.insert k v).keys = t.keys ++ [k] := by
  unfold keys
  rw [toList_insert_of_not_mem h, List.map_append]
  rfl

theorem toList_insertAll {t : Table κ ν} {entries : List (κ × ν)}
    (h : (t.keys ++ entries.map Prod.fst).Nodup) :
    (t.insertAll entries).toList = t.toList ++ entries := by
  induction entries generalizing t with
  | nil => simp [insertAll]
  | cons e entries ih =>
      have hnew : e.1 ∉ t.keys := by
        rw [List.map_cons, List.nodup_append] at h
        exact fun hk => h.2.2 e.1 hk e.1 List.mem_cons_self rfl
      have hkeys := keys_insert_of_not_mem hnew e.2
      change ((t.insert e.1 e.2).insertAll entries).toList = _
      rw [ih (by simpa [hkeys] using h), toList_insert_of_not_mem hnew, List.append_assoc]
      rfl

theorem toList_ofList {entries : List (κ × ν)} (h : (entries.map Prod.fst).Nodup) :
    (ofList entries).toList = entries :=
  toList_insertAll h

theorem keys_insert_of_mem {t : Table κ ν} {k : κ} (h : k ∈ t.keys) (v : ν) :
    (t.insert k v).keys = t.keys := by
  obtain ⟨entries⟩ := t
  change (insertEntry k v entries).map Prod.fst = entries.map Prod.fst
  change k ∈ entries.map Prod.fst at h
  induction entries with
  | nil => cases h
  | cons e entries ih =>
      obtain ⟨k', v'⟩ := e
      rw [insertEntry]
      split
      next => rfl
      next hne =>
        have hmem : k ∈ entries.map Prod.fst := by
          rcases List.mem_cons.mp h with heq | hmem
          · exact absurd (beq_iff_eq.mpr heq) hne
          · exact hmem
        rw [List.map_cons, List.map_cons, ih hmem]

theorem nodup_keys_insert {t : Table κ ν} (h : t.keys.Nodup) (k : κ) (v : ν) :
    (t.insert k v).keys.Nodup := by
  by_cases hk : k ∈ t.keys
  · rw [keys_insert_of_mem hk]
    exact h
  · rw [keys_insert_of_not_mem hk, ← List.concat_eq_append]
    exact h.concat hk

theorem nodup_keys_insertAll {t : Table κ ν} (h : t.keys.Nodup) (entries : List (κ × ν)) :
    (t.insertAll entries).keys.Nodup := by
  induction entries generalizing t with
  | nil => exact h
  | cons e entries ih => exact ih (nodup_keys_insert h e.1 e.2)

theorem mem_insertEntry {entries : List (κ × ν)} {k : κ} {v : ν} {e : κ × ν}
    (h : e ∈ insertEntry k v entries) : e = (k, v) ∨ e ∈ entries := by
  induction entries with
  | nil => exact .inl (List.mem_singleton.mp h)
  | cons e' entries ih =>
      obtain ⟨k', v'⟩ := e'
      rw [insertEntry] at h
      split at h
      next hk =>
        rcases List.mem_cons.mp h with rfl | h
        · exact .inl (by rw [eq_of_beq hk])
        · exact .inr (.tail _ h)
      next =>
        rcases List.mem_cons.mp h with rfl | h
        · exact .inr (.head _)
        · exact (ih h).imp_right (.tail _)

theorem mem_insertAll {entries : List (κ × ν)} {t : Table κ ν} {e : κ × ν}
    (h : e ∈ (t.insertAll entries).toList) : e ∈ t.toList ∨ e ∈ entries := by
  induction entries generalizing t with
  | nil => exact .inl h
  | cons entry entries ih =>
      rcases ih h with h | h
      · rcases mem_insertEntry h with rfl | h
        · exact .inr (.head _)
        · exact .inl h
      · exact .inr (.tail _ h)

theorem mem_ofList {entries : List (κ × ν)} {e : κ × ν} (h : e ∈ (ofList entries).toList) :
    e ∈ entries :=
  (mem_insertAll h).resolve_left (by rintro ⟨⟩)

/-- What is found after a table was written into another: its own values, and the old ones for the
keys that it has not. -/
theorem get?_insertAll {s : Table κ ν} (h : s.keys.Nodup) (t : Table κ ν) (k : κ) :
    (t.insertAll s.toList).get? k = (s.get? k).or (t.get? k) := by
  obtain ⟨entries⟩ := s
  change (entries.map Prod.fst).Nodup at h
  change (t.insertAll entries).get? k = (entries.lookup k).or (t.get? k)
  induction entries generalizing t with
  | nil => rfl
  | cons e entries ih =>
      rw [List.map_cons, List.nodup_cons] at h
      change ((t.insert e.1 e.2).insertAll entries).get? k = _
      rw [ih (t.insert e.1 e.2) h.2, List.lookup_cons]
      by_cases hk : k = e.1
      · subst hk
        have hnone : entries.lookup e.1 = none :=
          get?_eq_none_iff (t := (⟨entries⟩ : Table κ ν)).mpr h.1
        rw [hnone, get?_insert_self, beq_self_eq_true]
        rfl
      · rw [get?_insert_of_ne _ _ hk, beq_false_of_ne hk]

/-- The keys of some tables, each with the value of the last table that has it. -/
structure Merges (tables : List (Table κ ν)) (t : Table κ ν) : Prop where
  distinct : t.keys.Nodup
  get?_eq : ∀ k, t.get? k = (tables.filterMap (fun s => s.get? k)).getLast?

omit [LawfulBEq κ] in
theorem merges_nil : Merges [] (empty : Table κ ν) :=
  ⟨List.nodup_nil, fun _ => rfl⟩

theorem Merges.concat {tables : List (Table κ ν)} {t s : Table κ ν} (h : Merges tables t)
    (hs : s.keys.Nodup) : Merges (tables ++ [s]) (t.insertAll s.toList) where
  distinct := nodup_keys_insertAll h.distinct s.toList
  get?_eq k := by
    rw [get?_insertAll hs, h.get?_eq, List.filterMap_append, List.getLast?_append]
    cases hk : s.get? k <;> simp [hk]

theorem indexFirst_perm (t : Table String ν) : t.indexFirst.toList.Perm t.toList := by
  have hindexed : (t.toList.filterMap (fun e => (index? e.1).map (fun n => (n, e)))).map Prod.snd =
      t.toList.filter (fun e => (index? e.1).isSome) := by
    induction t.toList with
    | nil => rfl
    | cons e entries ih => cases he : index? e.1 <;> simp [he, ih]
  have hothers : (fun e : String × ν => (index? e.1).isNone) =
      fun e => !(index? e.1).isSome := by
    funext e
    cases index? e.1 <;> rfl
  have hsorted := ((t.toList.filterMap
    (fun e => (index? e.1).map (fun n => (n, e)))).mergeSort_perm
      (fun a b => decide (a.1 ≤ b.1))).map Prod.snd
  rw [hindexed] at hsorted
  unfold indexFirst
  dsimp only
  rw [hothers]
  exact (hsorted.append_right _).trans (List.filter_append_perm _ _)

end OpenQasm.Table
