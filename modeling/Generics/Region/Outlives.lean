import Generics.Lists
import Generics.Region.Basic

/-!
# Which regions outlive which

Region parameters are declared with the regions that they outlive. What follows from the declared
bounds is the least preorder that contains them and puts the static region above every region.
`RegionParam.outlives` decides it by a search along the bounds. The search looks at the bounds of a
region once, however many bounds lead to the region, and is over when it comes to the region asked for
or to the static region.
-/

namespace Generics

/-- A declared region parameter. -/
structure RegionParam where
  /-- The region declared. -/
  name : Region
  /-- The regions that it outlives. -/
  bounds : List Region
deriving DecidableEq, Repr

namespace RegionParam

/-- The declared bounds as pairs of a region and one that it outlives. -/
def edges (params : List RegionParam) : List (Region × Region) :=
  params.flatMap fun p => p.bounds.map fun b => (p.name, b)

/-- What follows from declared bounds: `Outlives edges a b` says that `a` outlives `b`. -/
inductive Outlives (edges : List (Region × Region)) : Region → Region → Prop where
  | refl (a : Region) : Outlives edges a a
  | bound {a b : Region} (h : (a, b) ∈ edges) : Outlives edges a b
  | static (a : Region) : Outlives edges .static a
  | trans {a b c : Region} (hab : Outlives edges a b) (hbc : Outlives edges b c) : Outlives edges a c

/-- The bounds of a region in the order of their declaration. A region may be declared more than once. -/
def boundsOf (params : List RegionParam) (r : Region) : List Region :=
  params.flatMap fun p => if p.name = r then p.bounds else []

theorem mem_boundsOf_iff {params : List RegionParam} {r b : Region} :
    b ∈ boundsOf params r ↔ (r, b) ∈ edges params := by
  simp only [boundsOf, edges, List.mem_flatMap, List.mem_map, Prod.mk.injEq]
  constructor
  · rintro ⟨p, hp, hb⟩
    split at hb
    · rename_i hname
      exact ⟨p, hp, b, hb, hname, rfl⟩
    · cases hb
  · rintro ⟨p, hp, _, hb, hname, rfl⟩
    exact ⟨p, hp, by rwa [if_pos hname]⟩

/-! ## Searching -/

/-- How far a search along bounds has come. -/
structure Search where
  /-- The regions met so far. -/
  visited : List Region
  /-- Those of them whose bounds are still to be looked at, the last one met first. -/
  frontier : List Region

namespace Search

/-- The search from a region on. -/
def start (a : Region) : Search := ⟨[a], [a]⟩

/-- Meets a region, which matters only if it was not met before. -/
def meet (s : Search) (r : Region) : Search :=
  if r ∈ s.visited then s else ⟨r :: s.visited, r :: s.frontier⟩

/-- How many turns the search can still take at most: one for each region of the frontier, and one for
each bound that leads to a region not met so far. -/
def turnsLeft (params : List RegionParam) (s : Search) : Nat :=
  (edges params).countP (fun e => e.2 ∉ s.visited) + s.frontier.length

end Search

/-- What comes of a turn of a search. -/
inductive Turn where
  /-- The region asked for, or the static region, was met. -/
  | found
  /-- There is no region left to look at. -/
  | exhausted
  | next (s : Search)

/-- Looks at the bounds of the region that was met last. -/
def turn (params : List RegionParam) (b : Region) (s : Search) : Turn :=
  match s.frontier with
  | [] => .exhausted
  | r :: frontier =>
    let bounds := boundsOf params r
    if b ∈ bounds ∨ .static ∈ bounds then .found
    else .next (bounds.foldl Search.meet { s with frontier })

/-- A bound that leads to a region not met so far leads nowhere new once the region is met. -/
theorem countP_notMem_cons_lt {edges : List (Region × Region)} {e : Region × Region}
    {visited : List Region} (he : e ∈ edges) (hnew : e.2 ∉ visited) :
    edges.countP (fun f => f.2 ∉ e.2 :: visited) < edges.countP (fun f => f.2 ∉ visited) :=
  countP_lt_countP (fun f _ hf => by simp_all) ⟨e, he, by simpa using hnew, by simp⟩

theorem Search.turnsLeft_meet_le {params : List RegionParam} {r : Region}
    (hr : ∃ e ∈ edges params, e.2 = r) (s : Search) :
    (s.meet r).turnsLeft params ≤ s.turnsLeft params := by
  unfold meet
  split
  · exact Nat.le_refl _
  · rename_i hnew
    obtain ⟨e, he, rfl⟩ := hr
    have hless := countP_notMem_cons_lt he hnew
    simp only [turnsLeft, List.length_cons]
    omega

theorem Search.turnsLeft_foldl_meet_le {params : List RegionParam} {rs : List Region}
    (hrs : ∀ r ∈ rs, ∃ e ∈ edges params, e.2 = r) (s : Search) :
    (rs.foldl meet s).turnsLeft params ≤ s.turnsLeft params := by
  induction rs generalizing s with
  | nil => exact Nat.le_refl _
  | cons r rs ih =>
    have hfirst := turnsLeft_meet_le (hrs r List.mem_cons_self) s
    have hrest := ih (fun r hr => hrs r (List.mem_cons_of_mem _ hr)) (s.meet r)
    exact Nat.le_trans hrest hfirst

/-- Every turn of a search brings its end nearer. -/
theorem turnsLeft_lt_of_turn {params : List RegionParam} {b : Region} {s s' : Search}
    (h : turn params b s = .next s') : s'.turnsLeft params < s.turnsLeft params := by
  unfold turn at h
  split at h
  · cases h
  · rename_i r frontier hfrontier
    dsimp only at h
    split at h
    · cases h
    · cases h
      have hbounds : ∀ x ∈ boundsOf params r, ∃ e ∈ edges params, e.2 = x := fun x hx =>
        ⟨(r, x), mem_boundsOf_iff.mp hx, rfl⟩
      have hless := Search.turnsLeft_foldl_meet_le hbounds { s with frontier }
      simp only [Search.turnsLeft, hfrontier, List.length_cons] at hless ⊢
      omega

/-- Takes turns until the region asked for or the static region is met or no region is left. -/
def search (params : List RegionParam) (b : Region) (s : Search) : Bool :=
  match h : turn params b s with
  | .found => true
  | .exhausted => false
  | .next s' =>
    have : s'.turnsLeft params < s.turnsLeft params := turnsLeft_lt_of_turn h
    search params b s'
termination_by s.turnsLeft params

/-- Decides whether `a` outlives `b` by the declared bounds. -/
def outlives (params : List RegionParam) (a b : Region) : Bool :=
  a = b || a = .static || search params b (.start a)

end RegionParam

end Generics
