/-!
# Keyed — values under keys, in the order of the keys

A `Keyed α` holds at most one value under each key and lists its entries by key, so that two of them
are equal exactly when they hold the same values.  Keys are ordered by their code points.

* `Keyed.put` — the entry list with one value set, for lists that carry no proof;
* `Keyed.insert`, `Keyed.find?`, `Keyed.ofList` — setting, looking up, and setting one after another.
-/

namespace Playscript

/-- At most one value under each key, listed by key. -/
structure Keyed (α : Type) where
  entries : List (String × α)
  sorted : entries.Pairwise fun a b => a.1 < b.1
deriving DecidableEq, Repr

namespace Keyed

variable {α β : Type}

def empty : Keyed α := ⟨[], .nil⟩

instance : Inhabited (Keyed α) := ⟨empty⟩

/-! ## Setting a value -/

def put (key : String) (value : α) : List (String × α) → List (String × α)
  | [] => [(key, value)]
  | (k, v) :: rest =>
    if key < k then (key, value) :: (k, v) :: rest
    else if k < key then (k, v) :: put key value rest
    else (key, value) :: rest

theorem mem_put {key : String} {value : α} {entries : List (String × α)} {e : String × α} :
    e ∈ put key value entries → e = (key, value) ∨ e ∈ entries := by
  induction entries with
  | nil => simp [put]
  | cons head rest ih =>
    obtain ⟨k, v⟩ := head
    unfold put
    split
    · intro h
      rcases List.mem_cons.1 h with h | h
      · exact .inl h
      · exact .inr h
    · split
      · intro h
        rcases List.mem_cons.1 h with h | h
        · exact .inr (h ▸ List.mem_cons_self)
        · rcases ih h with h | h
          · exact .inl h
          · exact .inr (List.mem_cons_of_mem _ h)
      · intro h
        rcases List.mem_cons.1 h with h | h
        · exact .inl h
        · exact .inr (List.mem_cons_of_mem _ h)

theorem sorted_put (key : String) (value : α) {entries : List (String × α)}
    (h : entries.Pairwise fun a b => a.1 < b.1) :
    (put key value entries).Pairwise fun a b => a.1 < b.1 := by
  induction entries with
  | nil => simp [put]
  | cons head rest ih =>
    obtain ⟨k, v⟩ := head
    obtain ⟨hhead, hrest⟩ := List.pairwise_cons.1 h
    unfold put
    split
    · rename_i hlt
      refine List.pairwise_cons.2 ⟨?_, h⟩
      intro e he
      rcases List.mem_cons.1 he with he | he
      · simpa [he] using hlt
      · exact String.lt_trans hlt (hhead e he)
    · split
      · rename_i hlt
        refine List.pairwise_cons.2 ⟨?_, ih hrest⟩
        intro e he
        rcases mem_put he with he | he
        · simpa [he] using hlt
        · exact hhead e he
      · rename_i hge hle
        have hkey : key = k := String.le_antisymm (String.not_lt.1 hle) (String.not_lt.1 hge)
        exact List.pairwise_cons.2 ⟨fun e he => hkey ▸ hhead e he, hrest⟩

def insert (m : Keyed α) (key : String) (value : α) : Keyed α :=
  ⟨put key value m.entries, sorted_put key value m.sorted⟩

/-- Sets values one after another, so that the last one under a key stays. -/
def ofList (entries : List (String × α)) : Keyed α :=
  entries.foldl (fun m e => m.insert e.1 e.2) empty

/-! ## Looking up -/

def find? (m : Keyed α) (key : String) : Option α := m.entries.lookup key

def contains (m : Keyed α) (key : String) : Bool := (m.find? key).isSome

def size (m : Keyed α) : Nat := m.entries.length

def isEmpty (m : Keyed α) : Bool := m.entries.isEmpty

def map (f : α → β) (m : Keyed α) : Keyed β :=
  ⟨m.entries.map fun e => (e.1, f e.2), List.pairwise_map.2 m.sorted⟩

end Keyed

end Playscript
