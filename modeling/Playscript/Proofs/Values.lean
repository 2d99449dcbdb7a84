import Playscript.Proofs.Numerals
import Playscript.Proofs.Records

/-!
# Values — values that were read are written and read back

A value that was read nests no deeper than it may, lists its members by key, and holds no number
that a document cannot hold.  So it is read back as the same value from where it was written, if
the doubles in it are.

* `Json.doubles` — the doubles of a value;
* `Json.Stable` — a value that is read back wherever it may nest so deep;
* `Json.stable_of_resolve?` — every value that was read is stable, given that for its doubles.
-/

namespace Playscript
namespace Json

/-! ## Doubles -/

mutual

/-- The doubles of a value, in the order in which they are written. -/
def doubles : Json → List Binary64
  | number (.double x) => [x]
  | array items => itemDoubles items
  | object members => memberDoubles members
  | _ => []

def itemDoubles : List Json → List Binary64
  | [] => []
  | item :: items => doubles item ++ itemDoubles items

def memberDoubles : List (String × Json) → List Binary64
  | [] => []
  | (_, value) :: members => doubles value ++ memberDoubles members

end

theorem mem_itemDoubles {x : Binary64} {item : Json} {items : List Json} (hitem : item ∈ items)
    (h : x ∈ item.doubles) : x ∈ itemDoubles items := by
  induction items with
  | nil =>
      cases hitem
  | cons first items ih =>
      rw [itemDoubles, List.mem_append]
      rcases List.mem_cons.1 hitem with rfl | hitem
      · exact .inl h
      · exact .inr (ih hitem)

theorem mem_memberDoubles {x : Binary64} {member : String × Json} {members : List (String × Json)}
    (hmember : member ∈ members) (h : x ∈ member.2.doubles) : x ∈ memberDoubles members := by
  induction members with
  | nil =>
      cases hmember
  | cons first members ih =>
      rw [memberDoubles, List.mem_append]
      rcases List.mem_cons.1 hmember with rfl | hmember
      · exact .inl h
      · exact .inr (ih hmember)

/-- A value whose doubles are read back, each of them by itself. -/
def Backed (v : Json) : Prop := ∀ x ∈ v.doubles, x.isFinite = true → ReadsBack x

theorem Backed.item {items : List Json} (h : (array items).Backed) {item : Json}
    (hitem : item ∈ items) : item.Backed :=
  fun x hx => h x (by rw [doubles]; exact mem_itemDoubles hitem hx)

theorem Backed.member {members : List (String × Json)} (h : (object members).Backed)
    {member : String × Json} (hmember : member ∈ members) : member.2.Backed :=
  fun x hx => h x (by rw [doubles]; exact mem_memberDoubles hmember hx)

/-! ## Stable values -/

/-- A value that is read back as it is, where it may nest `depth` levels. -/
structure Stable (depth : Nat) (v : Json) : Prop where
  legible : v.Legible
  resolved : v.tree.resolve? depth = some v

variable {depth : Nat}

theorem stable_array {items : List Json} (h : ∀ item ∈ items, item.Stable depth) :
    (array items).Stable (depth + 1) := by
  have hitems : Tree.resolveItems? depth (trees items) = some items := by
    induction items with
    | nil =>
        rfl
    | cons item items ih =>
        have hfirst := (h item List.mem_cons_self).resolved
        have hrest := ih fun v hv => h v (List.mem_cons_of_mem _ hv)
        simp [trees, Tree.resolveItems?, hfirst, hrest]
  exact ⟨itemsLegible_of_forall fun item hitem => (h item hitem).legible,
    by simp [tree, Tree.resolve?, hitems]⟩

theorem stable_object {members : List (String × Json)}
    (hsorted : members.Pairwise fun a b => a.1 < b.1)
    (h : ∀ member ∈ members, member.2.Stable depth) : (object members).Stable (depth + 1) := by
  have hmembers : Tree.resolveMembers? depth (memberTrees members) = some members := by
    clear hsorted
    induction members with
    | nil =>
        rfl
    | cons member members ih =>
        have hrest := ih fun m hm => h m (List.mem_cons_of_mem _ hm)
        exact resolveMembers?_cons member.1 (h member List.mem_cons_self).resolved hrest
  have hentries : (Keyed.ofList members).entries = members := by
    rw [Keyed.entries_ofList, Keyed.foldl_put_of_sorted hsorted]
  refine ⟨membersLegible_of_forall fun member hmember => (h member hmember).legible, ?_⟩
  rw [resolve?_object hmembers, hentries]

theorem stable_number {n : Number} (h : n.Held) (hback : (number n).Backed) :
    (number n).Stable depth := by
  have hlegible := Number.legible_of_held h (by
    rintro x rfl hfinite
    exact hback x (by simp [doubles]) hfinite)
  exact ⟨hlegible.1, by simp [tree, Tree.resolve?, hlegible.2]⟩

/-! ## Values that were read -/

mutual

/-- A value that was read is stable, if its doubles are read back. -/
theorem stable_of_resolve? : ∀ (t : Tree) {depth : Nat} {v : Json}, t.resolve? depth = some v →
    v.Backed → v.Stable depth
  | .null, _, _, h, _ => by
    obtain rfl := Option.some.inj (by simpa [Tree.resolve?] using h)
    exact ⟨trivial, rfl⟩
  | .bool b, _, _, h, _ => by
    obtain rfl := Option.some.inj (by simpa [Tree.resolve?] using h)
    exact ⟨trivial, rfl⟩
  | .number l, _, _, h, hback => by
    rw [Tree.resolve?, Option.map_eq_some_iff] at h
    rcases h with ⟨n, hn, rfl⟩
    exact stable_number (held_of_numberOf? hn) hback
  | .text ps, depth, _, h, _ => by
    rw [Tree.resolve?, Option.map_eq_some_iff] at h
    rcases h with ⟨s, -, rfl⟩
    exact ⟨trivial, resolve?_text depth s⟩
  | .array ts, 0, _, h, _ => by
    simp [Tree.resolve?] at h
  | .array ts, depth + 1, _, h, hback => by
    rw [Tree.resolve?, Option.map_eq_some_iff] at h
    rcases h with ⟨items, hitems, rfl⟩
    have hstable := stable_of_resolveItems? ts hitems
    exact stable_array fun item hitem => hstable item hitem (hback.item hitem)
  | .object ms, 0, _, h, _ => by
    simp [Tree.resolve?] at h
  | .object ms, depth + 1, _, h, hback => by
    rw [Tree.resolve?, Option.map_eq_some_iff] at h
    rcases h with ⟨members, hmembers, rfl⟩
    have hstable := stable_of_resolveMembers? ms hmembers
    exact stable_object (Keyed.sorted_foldl_put members) fun member hmember =>
      hstable member (Keyed.mem_foldl_put hmember) (hback.member hmember)

theorem stable_of_resolveItems? : ∀ (ts : List Tree) {depth : Nat} {items : List Json},
    Tree.resolveItems? depth ts = some items → ∀ item ∈ items, item.Backed → item.Stable depth
  | [], _, _, h => by
    obtain rfl := Option.some.inj (by simpa [Tree.resolveItems?] using h)
    intro item hitem
    cases hitem
  | t :: ts, depth, items, h => by
    simp only [Tree.resolveItems?, Option.bind_eq_bind, Option.bind_eq_some_iff, Option.pure_def,
      Option.some.injEq] at h
    rcases h with ⟨first, hfirst, rest, hrest, rfl⟩
    intro item hitem
    rcases List.mem_cons.1 hitem with rfl | hitem
    · exact stable_of_resolve? t hfirst
    · exact stable_of_resolveItems? ts hrest item hitem

theorem stable_of_resolveMembers? : ∀ (ms : List (List Piece × Tree)) {depth : Nat}
    {members : List (String × Json)}, Tree.resolveMembers? depth ms = some members →
      ∀ member ∈ members, member.2.Backed → member.2.Stable depth
  | [], _, _, h => by
    obtain rfl := Option.some.inj (by simpa [Tree.resolveMembers?] using h)
    intro member hmember
    cases hmember
  | (key, t) :: ms, depth, members, h => by
    simp only [Tree.resolveMembers?, Option.bind_eq_bind, Option.bind_eq_some_iff, Option.pure_def,
      Option.some.injEq] at h
    rcases h with ⟨key', hkey, first, hfirst, rest, hrest, rfl⟩
    intro member hmember
    rcases List.mem_cons.1 hmember with rfl | hmember
    · exact stable_of_resolve? t hfirst
    · exact stable_of_resolveMembers? ms hrest member hmember

end

end Json
end Playscript
