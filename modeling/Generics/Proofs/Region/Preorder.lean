import Generics.Proofs.Region.Known

/-!
# Outliving decided

`RegionParam.outlives` searches along the declared bounds. A search that has found nothing has met a set
of regions that is closed under the bounds and holds neither the region asked for nor the static region,
so nothing that follows from the bounds is missed: the search decides the least preorder that contains
the bounds and puts the static region on top.

## Main results

* `RegionParam.wellFounded_turn`: no search takes turns for ever;
* `RegionParam.Explored`: what a search knows of the regions that it has met, kept by every turn;
* `RegionParam.outlives_iff`: the search decides `RegionParam.Outlives`;
* `RegionParam.Outlives.eq_of_forall_edge`: a region without declared bounds outlives only itself.
-/

namespace Generics

namespace RegionParam

variable {edges : List (Region × Region)} {params : List RegionParam} {a b : Region}

/-- No search takes turns for ever, wherever it stands. -/
theorem wellFounded_turn (params : List RegionParam) (b : Region) :
    WellFounded fun s' s : Search => turn params b s = .next s' :=
  Subrelation.wf turnsLeft_lt_of_turn (measure fun s : Search => s.turnsLeft params).wf

/-! ## What a search has met -/

/-- The search has met neither the region asked for nor the static region, and it has met all bounds of
the regions that have left its frontier. -/
structure Explored (params : List RegionParam) (b : Region) (s : Search) : Prop where
  target : b ∉ s.visited
  static : .static ∉ s.visited
  bounds : ∀ r ∈ s.visited, r ∈ s.frontier ∨
    ∀ x, (r, x) ∈ RegionParam.edges params → x ∈ s.visited

theorem explored_start (hb : a ≠ b) (hstatic : a ≠ .static) : Explored params b (.start a) where
  target := by simpa [Search.start] using hb.symm
  static := by simpa [Search.start] using hstatic.symm
  bounds _ hr := .inl hr

/-- What is known of the regions met stays known when a turn meets more of them. -/
theorem Explored.turn {s s' : Search} (h : Explored params b s)
    (hturn : RegionParam.turn params b s = .next s') : s.visited ⊆ s'.visited ∧ Explored params b s' := by
  cases turned_of_eq hturn with
  | @next r frontier new hr hgo hnew =>
    refine ⟨List.subset_append_right new s.visited, ?_, ?_, fun x hx => ?_⟩
    · exact fun hmem => (List.mem_append.mp hmem).elim (fun hb => (hgo b (hnew b hb)).1 rfl) h.target
    · exact fun hmem => (List.mem_append.mp hmem).elim (fun hs => (hgo _ (hnew _ hs)).2.1 rfl) h.static
    · rcases List.mem_append.mp hx with hx | hx
      · exact .inl (List.mem_append_left frontier hx)
      · rcases h.bounds x hx with hx | hbounds
        · rw [hr] at hx
          rcases List.mem_cons.mp hx with rfl | hx
          · -- the region whose bounds were looked at leaves the frontier
            exact .inr fun y hy => (hgo y hy).2.2
          · exact .inl (List.mem_append_right new hx)
        · exact .inr fun y hy => List.mem_append_right new (hbounds y hy)

/-- A search that finds nothing goes on until its frontier is empty. -/
theorem Explored.exists_over {s : Search} (h : Explored params b s) (hsearch : search params b s = false) :
    ∃ s', s.visited ⊆ s'.visited ∧ Explored params b s' ∧ s'.frontier = [] := by
  fun_induction search params b s with
  | case1 s hturn => cases hsearch
  | case2 s hturn =>
    cases turned_of_eq hturn with
    | exhausted hfrontier => exact ⟨s, List.Subset.refl _, h, hfrontier⟩
  | case3 s s' hturn _ ih =>
    obtain ⟨hvisited, h'⟩ := h.turn hturn
    obtain ⟨s'', hvisited', hover⟩ := ih h' hsearch
    exact ⟨s'', List.Subset.trans hvisited hvisited', hover⟩

/-- Nothing leads out of what a search has met by its end. -/
theorem Explored.mem_of_outlives {s : Search} (h : Explored params b s) (hover : s.frontier = [])
    {x y : Region} (hxy : Outlives (RegionParam.edges params) x y) (hx : x ∈ s.visited) :
    y ∈ s.visited := by
  induction hxy with
  | refl x => exact hx
  | @bound x y hedge =>
    rcases h.bounds x hx with hfrontier | hbounds
    · rw [hover] at hfrontier
      cases hfrontier
    · exact hbounds y hedge
  | static y => exact absurd hx h.static
  | trans _ _ ihxy ihyz => exact ihyz (ihxy hx)

/-! ## The search decides the preorder -/

/-- What follows from the declared bounds is found. -/
theorem outlives_complete (h : Outlives (RegionParam.edges params) a b) :
    outlives params a b = true := by
  by_cases hb : a = b
  · simp [outlives, hb]
  by_cases hstatic : a = .static
  · simp [outlives, hstatic]
  cases hsearch : search params b (.start a) with
  | true => simp [outlives, hsearch]
  | false =>
    obtain ⟨s, hvisited, hexplored, hover⟩ := (explored_start hb hstatic).exists_over hsearch
    have ha : a ∈ s.visited := hvisited List.mem_cons_self
    exact absurd (hexplored.mem_of_outlives hover h ha) hexplored.target

/-- The search over the declared bounds decides what follows from them. -/
theorem outlives_iff : outlives params a b = true ↔ Outlives (RegionParam.edges params) a b :=
  ⟨outlives_sound, outlives_complete⟩

/-- A region other than the static one that has no declared bounds outlives only itself. -/
theorem Outlives.eq_of_forall_edge (h : Outlives edges a b) (hstatic : a ≠ .static)
    (hedges : ∀ e ∈ edges, e.1 ≠ a) : b = a := by
  induction h with
  | refl a => rfl
  | bound hedge => exact absurd rfl (hedges _ hedge)
  | static a => exact absurd rfl hstatic
  | trans _ _ ihab ihbc =>
    obtain rfl := ihab hstatic hedges
    exact ihbc hstatic hedges

end RegionParam

end Generics
