/-
  Sorting by a key, where no two elements have the same.
-/
import Mathlib.Data.List.Sort

variable {α β κ : Type} [LinearOrder κ]

/-- A stable sort by the key. -/
def sortByKey (key : α → κ) (l : List α) : List α := l.mergeSort fun a b => decide (key a ≤ key b)

section
variable {key : α → κ} {l l' : List α}

theorem sortByKey_perm (key : α → κ) (l : List α) : (sortByKey key l).Perm l :=
  List.mergeSort_perm _ _

theorem mem_sortByKey {a : α} : a ∈ sortByKey key l ↔ a ∈ l := (sortByKey_perm key l).mem_iff

theorem antisymm_key (key : α → κ) : Std.Antisymm fun a b : α => key a < key b :=
  ⟨fun _ _ h h' => absurd h' h.asymm⟩

/-- Keys that differ are sorted strictly. -/
theorem sortByKey_pairwise (h : (l.map key).Nodup) :
    (sortByKey key l).Pairwise fun a b => key a < key b := by
  have hle : (sortByKey key l).Pairwise fun a b => decide (key a ≤ key b) = true :=
    List.pairwise_mergeSort (fun a b c => by simpa using le_trans) (fun a b => by
      simpa using le_total (key a) (key b)) l
  have hne : (sortByKey key l).Pairwise fun a b => key a ≠ key b :=
    List.pairwise_map.1 (((sortByKey_perm key l).map key).nodup_iff.2 h)
  exact (hle.and hne).imp fun h => lt_of_le_of_ne (by simpa using h.1) h.2

theorem nodup_sortByKey (h : (l.map key).Nodup) : (sortByKey key l).Nodup :=
  ((sortByKey_perm key l).nodup_iff).2 (List.Nodup.of_map key h)

/-- Lists that are sorted strictly are the same when they have the same elements. -/
theorem eq_of_sorted (key : α → κ) (hs : l.Pairwise fun a b => key a < key b)
    (hs' : l'.Pairwise fun a b => key a < key b) (hp : l.Perm l') : l = l' :=
  haveI := antisymm_key key
  List.Perm.eq_of_pairwise' hs hs' hp

theorem sortByKey_congr (h : (l.map key).Nodup) (hp : l'.Perm l) :
    sortByKey key l' = sortByKey key l :=
  eq_of_sorted key (sortByKey_pairwise ((hp.map key).nodup_iff.2 h)) (sortByKey_pairwise h)
    (((sortByKey_perm key l').trans hp).trans (sortByKey_perm key l).symm)

omit [LinearOrder κ] in
theorem nodup_map_of_subperm (h : (l.map key).Nodup) (hp : l'.Subperm l) : (l'.map key).Nodup := by
  obtain ⟨m, hm, hs⟩ := hp
  exact ((hm.map key).nodup_iff).1 ((hs.map key).nodup h)

/-- **Some of the elements, sorted, are a sublist of all, sorted.** -/
theorem sortByKey_sublist (h : (l.map key).Nodup) (hp : l'.Subperm l) :
    (sortByKey key l').Sublist (sortByKey key l) :=
  haveI := antisymm_key key
  List.sublist_of_subperm_of_pairwise (((sortByKey_perm key l').subperm.trans hp).trans
    (sortByKey_perm key l).symm.subperm) (sortByKey_pairwise
      (nodup_map_of_subperm h hp)) (sortByKey_pairwise h)

theorem map_sortByKey (key' : β → κ) {f : α → β} (hf : ∀ a, key' (f a) = key a)
    (h : (l.map key).Nodup) : (sortByKey key l).map f = sortByKey key' (l.map f) := by
  refine eq_of_sorted key' ?_ (sortByKey_pairwise ?_)
    (((sortByKey_perm key l).map f).trans (sortByKey_perm key' (l.map f)).symm)
  · rw [List.pairwise_map]
    exact (sortByKey_pairwise h).imp fun hab => by rwa [hf, hf]
  · rwa [List.map_map, show key' ∘ f = key from funext hf]

end
