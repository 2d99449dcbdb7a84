import Mathlib.Data.List.Induction
import Playscript.Keyed

/-!
# Keyed — setting values one after another

* `Keyed.entries_ofList` — the entries that are listed after values have been set one after another;
* `Keyed.find?_ofList` — the value that is found then is the last one under its key;
* `Keyed.sorted_foldl_put`, `Keyed.mem_foldl_put` — what is listed is sorted, and nothing else than
  what was set;
* `Keyed.foldl_put_of_sorted`, `Keyed.ofList_entries` — setting the values of a sorted list in its
  order gives that list back;
* `Keyed.filter`, `Keyed.find?_filter` — leaving entries out, and what is found then.
-/

namespace Playscript
namespace Keyed

variable {α : Type}

/-! ## Looking up -/

theorem lookup_cons (key k : String) (value : α) (entries : List (String × α)) :
    ((key, value) :: entries).lookup k = if k = key then some value else entries.lookup k := by
  by_cases hkey : k = key
  · simp [hkey]
  · have hne : (k == key) = false := by simpa using hkey
    simp [List.lookup_cons, hne, hkey]

theorem lookup_put (key k : String) (value : α) (entries : List (String × α)) :
    (put key value entries).lookup k = if k = key then some value else entries.lookup k := by
  induction entries with
  | nil =>
      exact lookup_cons key k value []
  | cons head rest ih =>
      rcases head with ⟨first, v⟩
      unfold put
      split
      · exact lookup_cons key k value _
      · split
        · rename_i hlt
          -- The key is set behind the first entry, which stands under another one.
          have hne : first ≠ key := fun h => String.lt_irrefl key (h ▸ hlt)
          rw [lookup_cons, lookup_cons, ih]
          by_cases hfirst : k = first <;> simp [hfirst, hne]
        · rename_i hge hle
          have hsame : key = first := String.le_antisymm (String.not_lt.1 hle) (String.not_lt.1 hge)
          rw [lookup_cons, lookup_cons, hsame]
          by_cases hfirst : k = first <;> simp [hfirst]

theorem lookup_of_fresh {entries : List (String × α)} {key : String}
    (h : key ∉ entries.map Prod.fst) : entries.lookup key = none := by
  rw [List.lookup_eq_none_iff]
  intro e he
  have hne : key ≠ e.1 := by
    rintro rfl
    exact h (List.mem_map_of_mem he)
  simpa using hne

theorem nodup_keys (m : Keyed α) : (m.entries.map Prod.fst).Nodup := by
  refine List.pairwise_map.2 (m.sorted.imp ?_)
  intro a b hlt heq
  exact String.lt_irrefl b.1 (heq ▸ hlt)

theorem find?_insert (m : Keyed α) (key k : String) (value : α) :
    (m.insert key value).find? k = if k = key then some value else m.find? k :=
  lookup_put key k value m.entries

/-- The last value under a key is the one that is found. -/
theorem find?_ofList (entries : List (String × α)) (k : String) :
    (ofList entries).find? k = entries.reverse.lookup k := by
  induction entries using List.reverseRecOn with
  | nil =>
      rfl
  | append_singleton entries last ih =>
      have hlast : ofList (entries ++ [last]) = (ofList entries).insert last.1 last.2 := by
        simp [ofList]
      rw [hlast, find?_insert, ih, List.reverse_append]
      exact (lookup_cons last.1 k last.2 entries.reverse).symm

theorem find?_ofList_eq_some_iff (entries : List (String × α)) (key : String) (value : α) :
    (ofList entries).find? key = some value ↔
      ∃ before after, entries = before ++ (key, value) :: after ∧ key ∉ after.map Prod.fst := by
  rw [find?_ofList, List.lookup_eq_some_iff]
  constructor
  · rintro ⟨later, earlier, hentries, hlater⟩
    refine ⟨earlier.reverse, later.reverse, ?_, ?_⟩
    · simpa using congrArg List.reverse hentries
    · intro hkey
      rcases List.mem_map.1 hkey with ⟨e, he, rfl⟩
      simpa using hlater e (List.mem_reverse.1 he)
  · rintro ⟨before, after, rfl, hafter⟩
    refine ⟨after.reverse, before.reverse, by simp, ?_⟩
    intro e he
    rw [bne_iff_ne]
    rintro rfl
    exact hafter (List.mem_map_of_mem (List.mem_reverse.1 he))

theorem contains_ofList_iff (entries : List (String × α)) (key : String) :
    (ofList entries).contains key = true ↔ key ∈ entries.map Prod.fst := by
  rw [contains, find?_ofList, List.lookup_isSome_iff, List.mem_map]
  constructor
  · rintro ⟨e, he, hkey⟩
    exact ⟨e, List.mem_reverse.1 he, (eq_of_beq hkey).symm⟩
  · rintro ⟨e, he, rfl⟩
    exact ⟨e, List.mem_reverse.2 he, beq_self_eq_true e.1⟩

/-! ## Setting in order -/

theorem put_append {key : String} {entries : List (String × α)} (h : ∀ e ∈ entries, e.1 < key)
    (value : α) : put key value entries = entries ++ [(key, value)] := by
  induction entries with
  | nil =>
      rfl
  | cons head rest ih =>
      rcases head with ⟨k, v⟩
      have hhead : k < key := h (k, v) List.mem_cons_self
      have hrest := ih (fun e he => h e (List.mem_cons_of_mem _ he))
      simp [put, String.lt_asymm hhead, hhead, hrest]

theorem foldl_put_of_sorted {entries : List (String × α)}
    (h : entries.Pairwise fun a b => a.1 < b.1) :
    entries.foldl (fun listed e => put e.1 e.2 listed) [] = entries := by
  induction entries using List.reverseRecOn with
  | nil =>
      rfl
  | append_singleton entries last ih =>
      rcases List.pairwise_append.1 h with ⟨hentries, -, hlast⟩
      have hput := put_append (fun e he => hlast e he last List.mem_cons_self) last.2
      simp [ih hentries, hput]

theorem entries_ofList (entries : List (String × α)) :
    (ofList entries).entries = entries.foldl (fun listed e => put e.1 e.2 listed) [] := by
  have hfold : ∀ m : Keyed α, (entries.foldl (fun m e => m.insert e.1 e.2) m).entries =
      entries.foldl (fun listed e => put e.1 e.2 listed) m.entries := by
    induction entries with
    | nil =>
        intro m
        rfl
    | cons e entries ih =>
        intro m
        exact ih (m.insert e.1 e.2)
  exact hfold empty

theorem sorted_foldl_put (entries : List (String × α)) :
    (entries.foldl (fun listed e => put e.1 e.2 listed) []).Pairwise fun a b => a.1 < b.1 := by
  rw [← entries_ofList]
  exact (ofList entries).sorted

theorem mem_foldl_put {entries : List (String × α)} {e : String × α}
    (h : e ∈ entries.foldl (fun listed e => put e.1 e.2 listed) []) : e ∈ entries := by
  induction entries using List.reverseRecOn with
  | nil =>
      cases h
  | append_singleton entries last ih =>
      rw [List.foldl_append] at h
      rcases mem_put h with rfl | h
      · exact List.mem_append_right _ List.mem_cons_self
      · exact List.mem_append_left _ (ih h)

/-- Setting the values of a keyed list in its order gives it back. -/
theorem ofList_entries (m : Keyed α) : ofList m.entries = m := by
  rcases m with ⟨entries, hsorted⟩
  have hentries : (ofList entries).entries = entries := by
    rw [entries_ofList, foldl_put_of_sorted hsorted]
  calc
    ofList entries
        = ⟨(ofList entries).entries, (ofList entries).sorted⟩ := rfl
    _ = ⟨entries, hsorted⟩ := by
          simp only [hentries]

/-! ## Leaving entries out -/

def filter (m : Keyed α) (keep : String → α → Bool) : Keyed α :=
  ⟨m.entries.filter fun e => keep e.1 e.2, m.sorted.filter _⟩

theorem lookup_filter {entries : List (String × α)} (h : (entries.map Prod.fst).Nodup)
    (keep : String → α → Bool) (k : String) :
    (entries.filter fun e => keep e.1 e.2).lookup k = (entries.lookup k).filter (keep k) := by
  induction entries with
  | nil =>
      rfl
  | cons e entries ih =>
      rcases e with ⟨key, value⟩
      rcases List.nodup_cons.1 h with ⟨hfresh, hrest⟩
      cases hkeep : keep key value with
      | true =>
          rw [List.filter_cons, if_pos hkeep, lookup_cons, lookup_cons, ih hrest]
          split
          · rename_i hk
            rw [hk, Option.filter, if_pos hkeep]
          · rfl
      | false =>
          rw [List.filter_cons_of_neg (by simp [hkeep]), lookup_cons, ih hrest]
          split
          · rename_i hk
            -- The entry that is left out was the only one under its key.
            rw [hk, lookup_of_fresh hfresh]
            simp [Option.filter, hkeep]
          · rfl

theorem find?_filter (m : Keyed α) (keep : String → α → Bool) (k : String) :
    (m.filter keep).find? k = (m.find? k).filter (keep k) :=
  lookup_filter m.nodup_keys keep k

end Keyed
end Playscript
