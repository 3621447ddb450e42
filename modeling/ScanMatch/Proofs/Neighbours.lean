import ScanMatch.Proofs.Plane

/-! # Matches kept

Each point of a cloud is matched with the first of its nearest points of the other one, and the
match is kept if it is not too far by the other end's own match. A ratio of one or more keeps the
closest pair both ways, and a ratio below one keeps only points that coincide. -/
namespace ScanMatch

namespace Neighbour

/-- The neighbour is the point `q` of a cloud, at its distance from `p`, and none is nearer. -/
structure Finds (n : Neighbour ℝ) (points : Array (Point ℝ)) (p q : Point ℝ) : Prop where
  found : points[n.index]? = some q
  distSq_eq : n.distSq = q.distanceSq p
  least : ∀ r ∈ points, q.distanceSq p ≤ r.distanceSq p

theorem closer_none (p q : Point ℝ) (index : ℕ) :
    closer p none index q = some ⟨index, q.distanceSq p⟩ := by
  have hbelow : Scalar.belowInfinity (q.distanceSq p) = true := by
    change (!Arith.isNaN (q.distanceSq p)) = true
    rw [Exact.isNaN_eq, Bool.not_false]
  exact if_pos hbelow

theorem closer_some (p q : Point ℝ) (best : Neighbour ℝ) (index : ℕ) :
    closer p (some best) index q =
      some (if q.distanceSq p < best.distSq then ⟨index, q.distanceSq p⟩ else best) :=
  (apply_ite some _ _ _).symm

/-- One more point is either nearer than the nearest before or leaves it. -/
theorem Finds.push {n : Neighbour ℝ} {points : Array (Point ℝ)} {p q : Point ℝ}
    (h : n.Finds points p q) (r : Point ℝ) :
    ∃ n' q', closer p (some n) points.size r = some n' ∧ n'.Finds (points.push r) p q' := by
  rw [closer_some, h.distSq_eq]
  by_cases hcloser : r.distanceSq p < q.distanceSq p
  · rw [if_pos hcloser]
    refine ⟨_, r, rfl, by simp, rfl, ?_⟩
    intro s hs
    obtain hs | rfl := Array.mem_push.mp hs
    · exact hcloser.le.trans (h.least s hs)
    · exact le_refl _
  · rw [if_neg hcloser]
    have hindex := (Array.getElem?_eq_some_iff.mp h.found).1
    refine ⟨n, q, rfl, ?_, h.distSq_eq, ?_⟩
    · rw [Array.getElem?_push, if_neg hindex.ne, h.found]
    · intro s hs
      obtain hs | rfl := Array.mem_push.mp hs
      · exact h.least s hs
      · exact not_lt.mp hcloser

theorem foldl_closer (p : Point ℝ) (points : List (Point ℝ)) (h : points ≠ []) :
    ∃ n q, points.foldl (fun (state : Option (Neighbour ℝ) × ℕ) r =>
        (closer p state.1 state.2 r, state.2 + 1)) (none, 0) = (some n, points.length) ∧
      n.Finds points.toArray p q := by
  induction points using List.reverseRecOn with
  | nil => exact absurd rfl h
  | append_singleton points r ih =>
    rw [List.foldl_append, List.foldl_cons, List.foldl_nil, List.length_append]
    by_cases hempty : points = []
    · subst hempty
      exact ⟨⟨0, r.distanceSq p⟩, r, by simp [closer_none], by simp, rfl, by simp⟩
    · obtain ⟨n, q, hfold, hfinds⟩ := ih hempty
      obtain ⟨n', q', hcloser, hfinds'⟩ := hfinds.push r
      rw [hfold]
      exact ⟨n', q', Prod.ext hcloser rfl, by simpa using hfinds'⟩

theorem nearest_finds {points : Array (Point ℝ)} (h : points ≠ #[]) (p : Point ℝ) :
    ∃ q, (nearest points p).Finds points p q := by
  obtain ⟨n, q, hfold, hfinds⟩ := foldl_closer p points.toList (by simpa using h)
  refine ⟨q, ?_⟩
  rw [nearest, ← Array.foldl_toList, hfold]
  exact hfinds

/-- Only the distances of the points decide, in their order. -/
theorem nearest_map_congr {f g : Point ℝ → Point ℝ} {p q : Point ℝ} (points : Array (Point ℝ))
    (h : ∀ r, (f r).distanceSq p = (g r).distanceSq q) :
    nearest (points.map f) p = nearest (points.map g) q := by
  have hcloser (best : Option (Neighbour ℝ)) (index : ℕ) (r : Point ℝ) :
      closer p best index (f r) = closer q best index (g r) := by
    cases best with
    | none => rw [closer_none, closer_none, h]
    | some best => rw [closer_some, closer_some, h]
  unfold nearest
  rw [Array.foldl_map, Array.foldl_map]
  simp only [hcloser]

end Neighbour

namespace Alignment

/-! ### Matches of one direction -/

/-- The points of one cloud with their matches in the other one, as far as they are kept. -/
noncomputable def kept (ratio : ℝ) (f g : Point ℝ → Neighbour ℝ) (xs ys : Array (Point ℝ)) :
    List (Point ℝ × Point ℝ) :=
  xs.toList.filterMap fun x =>
    match ys[(f x).index]? with
    | some y => if (f x).keeps ratio (g y) then some (x, y) else none
    | none => none

/-- The match of a point of the first cloud in the second one moved. -/
noncomputable def forth (b : Array (Point ℝ)) (pose : Pose ℝ) (p : Point ℝ) : Neighbour ℝ :=
  Neighbour.nearest (b.map (move pose)) p

/-- The match of a point of the second cloud, moved, in the first one. -/
noncomputable def back (a : Array (Point ℝ)) (pose : Pose ℝ) (q : Point ℝ) : Neighbour ℝ :=
  Neighbour.nearest a (move pose q)

theorem pairs_eq (ratio : ℝ) (a b : Array (Point ℝ)) (pose : Pose ℝ) :
    pairs ratio a b pose = (kept ratio (forth b pose) (back a pose) a b).map Prod.swap ++
      kept ratio (back a pose) (forth b pose) b a := by
  have hzip (f : Point ℝ → Neighbour ℝ) (xs : Array (Point ℝ)) :
      ((xs.map f).zip xs).toList = xs.toList.map fun x => (f x, x) := by
    rw [Array.toList_zip, Array.toList_map, List.map_prod_right_eq_zip]
  unfold pairs kept
  dsimp only
  rw [Array.map_map, hzip, hzip, List.map_filterMap, List.filterMap_map, List.filterMap_map]
  congr 1
  · apply List.filterMap_congr
    intro p _
    simp only [Function.comp_apply, Array.getElem?_map, forth]
    cases b[(Neighbour.nearest (b.map (move pose)) p).index]? with
    | none => rfl
    | some q =>
      have hswap (keep : Bool) : (if keep then some (q, p) else none) =
          Option.map Prod.swap (if keep then some (p, q) else none) := by
        cases keep <;> rfl
      exact hswap _
  · apply List.filterMap_congr
    intro q _
    simp only [Function.comp_apply, Array.getElem?_map, back]
    cases a[(Neighbour.nearest a (move pose q)).index]? with
    | none => rfl
    | some p => rfl

theorem keeps_iff {ratio : ℝ} {own other : Neighbour ℝ} :
    own.keeps ratio other = true ↔ √own.distSq ≤ ratio * √other.distSq := by
  change (!decide (ratio * √other.distSq < √own.distSq)) = true ↔ _
  simp

variable {ratio : ℝ} {f g : Point ℝ → Neighbour ℝ} {xs ys : Array (Point ℝ)}
  {gap : Point ℝ → Point ℝ → ℝ}

theorem mem_kept {x y : Point ℝ} : (x, y) ∈ kept ratio f g xs ys ↔
    x ∈ xs ∧ ys[(f x).index]? = some y ∧ √(f x).distSq ≤ ratio * √(g y).distSq := by
  simp only [kept, List.mem_filterMap, Array.mem_toList_iff]
  constructor
  · rintro ⟨z, hz, h⟩
    split at h
    · next w hw =>
      split at h
      · next hkeeps =>
        cases h
        exact ⟨hz, hw, keeps_iff.mp hkeeps⟩
      · cases h
    · cases h
  · rintro ⟨hx, hy, hkeeps⟩
    exact ⟨x, hx, by rw [hy]; exact if_pos (keeps_iff.mpr hkeeps)⟩

theorem length_kept_le : (kept ratio f g xs ys).length ≤ xs.size := by
  rw [← Array.length_toList]
  exact List.length_filterMap_le _ _

/-- The matches of two clouds by a gap between their points: each point has a point of the other
cloud to which the gap is least. -/
structure Mutual (f g : Point ℝ → Neighbour ℝ) (xs ys : Array (Point ℝ))
    (gap : Point ℝ → Point ℝ → ℝ) : Prop where
  gap_nonneg : ∀ x y, 0 ≤ gap x y
  forth : ∀ x, ∃ y, ys[(f x).index]? = some y ∧ (f x).distSq = gap x y ∧ ∀ z ∈ ys, gap x y ≤ gap x z
  back : ∀ y, ∃ x, xs[(g y).index]? = some x ∧ (g y).distSq = gap x y ∧ ∀ z ∈ xs, gap x y ≤ gap z y

theorem Mutual.swap (h : Mutual f g xs ys gap) : Mutual g f ys xs fun y x => gap x y :=
  ⟨fun y x => h.gap_nonneg x y, h.back, h.forth⟩

/-- The closest pair of the clouds is kept. -/
theorem Mutual.kept_ne_nil (h : Mutual f g xs ys gap) (hratio : 1 ≤ ratio) (hxs : xs ≠ #[]) :
    kept ratio f g xs ys ≠ [] := by
  obtain ⟨x, hx, hleast⟩ : ∃ x ∈ xs, ∀ z ∈ xs, (f x).distSq ≤ (f z).distSq := by
    have hfinite : {x | x ∈ xs}.Finite := by
      simpa using xs.toList.finite_toSet
    exact Set.exists_min_image _ _ hfinite (Array.exists_mem_of_ne_empty xs hxs)
  obtain ⟨y, hy, hgap, -⟩ := h.forth x
  obtain ⟨z, hz, hgap', -⟩ := h.back y
  obtain ⟨w, -, hgap'', hleast'⟩ := h.forth z
  have hle : (f x).distSq ≤ (g y).distSq := by
    rw [hgap']
    calc (f x).distSq ≤ (f z).distSq := hleast z (Array.mem_of_getElem? hz)
      _ = gap z w := hgap''
      _ ≤ gap z y := hleast' y (Array.mem_of_getElem? hy)
  refine List.ne_nil_of_mem (mem_kept.mpr ⟨hx, hy, ?_⟩)
  calc √(f x).distSq ≤ 1 * √(g y).distSq := by
        rw [one_mul]
        exact Real.sqrt_le_sqrt hle
    _ ≤ ratio * √(g y).distSq := by gcongr

/-- A match is no farther than any other of the same end, so that a smaller ratio rules it out
unless it has no distance. -/
theorem Mutual.gap_eq_zero (h : Mutual f g xs ys gap) (hratio : ratio < 1) {x y : Point ℝ}
    (hmem : (x, y) ∈ kept ratio f g xs ys) : gap x y = 0 := by
  obtain ⟨hx, hy, hkeeps⟩ := mem_kept.mp hmem
  obtain ⟨y', hy', hgap, -⟩ := h.forth x
  obtain rfl : y' = y := Option.some.inj (hy'.symm.trans hy)
  obtain ⟨z, -, hgap', hleast⟩ := h.back y'
  have hle : √(g y').distSq ≤ √(f x).distSq := by
    rw [hgap, hgap']
    exact Real.sqrt_le_sqrt (hleast x hx)
  have hzero : √(f x).distSq = 0 := by
    obtain hother | hother := (Real.sqrt_nonneg (g y').distSq).eq_or_lt'
    · rw [hother, mul_zero] at hkeeps
      exact le_antisymm hkeeps (Real.sqrt_nonneg _)
    · exact absurd (hle.trans hkeeps) (not_le.mpr (mul_lt_of_lt_one_left hother hratio))
  rwa [hgap, Real.sqrt_eq_zero (h.gap_nonneg x y')] at hzero

/-- Whatever the ratio, a point that coincides with one of the other cloud keeps its match, which
coincides with it as well. -/
theorem Mutual.kept_of_gap_eq_zero (h : Mutual f g xs ys gap) (ratio : ℝ) {x y : Point ℝ}
    (hx : x ∈ xs) (hy : y ∈ ys) (hzero : gap x y = 0) : ∃ z, (x, z) ∈ kept ratio f g xs ys := by
  obtain ⟨z, hz, hgap, hleast⟩ := h.forth x
  obtain ⟨w, -, hgap', hleast'⟩ := h.back z
  have hown : gap x z = 0 := le_antisymm (hzero ▸ hleast y hy) (h.gap_nonneg x z)
  have hother : gap w z = 0 := le_antisymm (hown ▸ hleast' x hx) (h.gap_nonneg w z)
  refine ⟨z, mem_kept.mpr ⟨hx, hz, ?_⟩⟩
  rw [hgap, hgap', hown, hother, Real.sqrt_zero, mul_zero]

theorem Mutual.length_kept (h : Mutual f g xs ys gap) (hzero : ∀ x ∈ xs, ∃ y ∈ ys, gap x y = 0) :
    (kept ratio f g xs ys).length = xs.size := by
  rw [kept, List.length_filterMap_eq_countP, ← Array.length_toList, List.countP_eq_length]
  intro x hx
  obtain ⟨y, hy, hgap⟩ := hzero x (Array.mem_toList_iff.mp hx)
  obtain ⟨z, hmem⟩ := h.kept_of_gap_eq_zero ratio (Array.mem_toList_iff.mp hx) hy hgap
  obtain ⟨-, hz, hkeeps⟩ := mem_kept.mp hmem
  rw [hz]
  exact congrArg Option.isSome (if_pos (keeps_iff.mpr hkeeps))

/-- A match coincides with its point if any point of the other cloud does. -/
theorem Mutual.gap_eq_zero_of_exists (h : Mutual f g xs ys gap) {x y z : Point ℝ}
    (hmem : (x, y) ∈ kept ratio f g xs ys) (hz : z ∈ ys) (hzero : gap x z = 0) : gap x y = 0 := by
  obtain ⟨-, hy, -⟩ := mem_kept.mp hmem
  obtain ⟨y', hy', -, hleast⟩ := h.forth x
  obtain rfl : y' = y := Option.some.inj (hy'.symm.trans hy)
  exact le_antisymm (hzero ▸ hleast z hz) (h.gap_nonneg x y')

theorem mutual_nearest {a b : Array (Point ℝ)} (ha : a ≠ #[]) (hb : b ≠ #[]) (pose : Pose ℝ) :
    Mutual (forth b pose) (back a pose) a b fun p q => (move pose q).distanceSq p := by
  refine ⟨fun p q => Point.distanceSq_nonneg _ _, ?_, ?_⟩
  · intro p
    have hmoved : b.map (move pose) ≠ #[] := by simpa using hb
    obtain ⟨r, hfinds⟩ := Neighbour.nearest_finds hmoved p
    have hfound := hfinds.found
    rw [Array.getElem?_map, Option.map_eq_some_iff] at hfound
    obtain ⟨q, hq, rfl⟩ := hfound
    exact ⟨q, hq, hfinds.distSq_eq, fun z hz => hfinds.least _ (Array.mem_map_of_mem hz)⟩
  · intro q
    obtain ⟨p, hfinds⟩ := Neighbour.nearest_finds ha (move pose q)
    simp only [Point.distanceSq_comm (move pose q)]
    exact ⟨p, hfinds.found, hfinds.distSq_eq, hfinds.least⟩

/-! ### Matches of both directions -/

section Pairs

variable {a b : Array (Point ℝ)} {pose : Pose ℝ} {m : Point ℝ × Point ℝ}

theorem mem_pairs : m ∈ pairs ratio a b pose ↔
    (m.2, m.1) ∈ kept ratio (forth b pose) (back a pose) a b ∨
      m ∈ kept ratio (back a pose) (forth b pose) b a := by
  rw [pairs_eq, List.mem_append, List.mem_map_swap]

theorem length_pairs_le : (pairs ratio a b pose).length ≤ a.size + b.size := by
  rw [pairs_eq, List.length_append, List.length_map]
  exact Nat.add_le_add length_kept_le length_kept_le

/-- The ends of a match are points of the clouds. -/
theorem mem_of_mem_pairs (h : m ∈ pairs ratio a b pose) : m.1 ∈ b ∧ m.2 ∈ a := by
  obtain h | h := mem_pairs.mp h
  · obtain ⟨hp, hq, -⟩ := mem_kept.mp h
    exact ⟨Array.mem_of_getElem? hq, hp⟩
  · obtain ⟨hq, hp, -⟩ := mem_kept.mp h
    exact ⟨hq, Array.mem_of_getElem? hp⟩

variable (ha : a ≠ #[]) (hb : b ≠ #[])

include ha hb

theorem two_le_length_pairs (hratio : 1 ≤ ratio) : 2 ≤ (pairs ratio a b pose).length := by
  have hmutual := mutual_nearest ha hb pose
  have hforth := List.length_pos_iff.mpr (hmutual.kept_ne_nil hratio ha)
  have hback := List.length_pos_iff.mpr (hmutual.swap.kept_ne_nil hratio hb)
  rw [pairs_eq, List.length_append, List.length_map]
  omega

theorem pairs_coincide (hratio : ratio < 1) (h : m ∈ pairs ratio a b pose) :
    move pose m.1 = m.2 := by
  have hmutual := mutual_nearest ha hb pose
  rw [← Point.distanceSq_eq_zero]
  obtain h | h := mem_pairs.mp h
  · exact hmutual.gap_eq_zero hratio h
  · exact hmutual.swap.gap_eq_zero hratio h

/-- Clouds that meet in a point have a match, whatever the ratio. -/
theorem pairs_ne_nil {p q : Point ℝ} (hp : p ∈ a) (hq : q ∈ b) (hmeet : move pose q = p) :
    pairs ratio a b pose ≠ [] := by
  obtain ⟨z, hz⟩ := (mutual_nearest ha hb pose).kept_of_gap_eq_zero ratio hp hq
    (Point.distanceSq_eq_zero.mpr hmeet)
  exact List.ne_nil_of_mem (mem_pairs.mpr (Or.inl (show ((z, p).2, (z, p).1) ∈ _ from hz)))

section Covered

variable (hforth : ∀ p ∈ a, ∃ q ∈ b, move pose q = p) (hback : ∀ q ∈ b, ∃ p ∈ a, move pose q = p)

include hforth hback

/-- Clouds that cover each other keep all matches, and all of them coincide. -/
theorem length_pairs_covered (ratio : ℝ) : (pairs ratio a b pose).length = a.size + b.size := by
  have hmutual := mutual_nearest ha hb pose
  simp only [← Point.distanceSq_eq_zero] at hforth hback
  rw [pairs_eq, List.length_append, List.length_map, hmutual.length_kept hforth,
    hmutual.swap.length_kept hback]

theorem pairs_coincide_covered (h : m ∈ pairs ratio a b pose) : move pose m.1 = m.2 := by
  have hmutual := mutual_nearest ha hb pose
  simp only [← Point.distanceSq_eq_zero] at hforth hback ⊢
  obtain h | h := mem_pairs.mp h
  · obtain ⟨q, hq, hzero⟩ := hforth m.2 (mem_kept.mp h).1
    exact hmutual.gap_eq_zero_of_exists h hq hzero
  · obtain ⟨p, hp, hzero⟩ := hback m.1 (mem_kept.mp h).1
    exact hmutual.swap.gap_eq_zero_of_exists h hp hzero

omit hforth in
theorem exists_pair_covered (ratio : ℝ) {q : Point ℝ} (hq : q ∈ b) :
    ∃ p, (q, p) ∈ pairs ratio a b pose := by
  have hmutual := mutual_nearest ha hb pose
  obtain ⟨p, hp, hmeet⟩ := hback q hq
  obtain ⟨z, hz⟩ := hmutual.swap.kept_of_gap_eq_zero ratio hq hp
    (Point.distanceSq_eq_zero.mpr hmeet)
  exact ⟨z, mem_pairs.mpr (Or.inr hz)⟩

omit hforth in
theorem pairs_distinct_covered (ratio : ℝ) (h : ∃ q ∈ b, ∃ q' ∈ b, q ≠ q') :
    ∃ m ∈ pairs ratio a b pose, ∃ m' ∈ pairs ratio a b pose, m.1 ≠ m'.1 := by
  obtain ⟨q, hq, q', hq', hdiffer⟩ := h
  obtain ⟨p, hp⟩ := exists_pair_covered ha hb hback ratio hq
  obtain ⟨p', hp'⟩ := exists_pair_covered ha hb hback ratio hq'
  exact ⟨_, hp, _, hp', hdiffer⟩

end Covered

end Pairs

/-- Exchanging the clouds and inverting the motion exchanges the ends of all matches. -/
theorem pairs_exchange {p q : Pose ℝ} (h : q.Congruent p.inverse) (ratio : ℝ)
    (a b : Array (Point ℝ)) :
    (pairs ratio b a q).Perm ((pairs ratio a b p).map Prod.swap) := by
  have hforth : forth a q = back a p := by
    funext t
    have hmap := Neighbour.nearest_map_congr (f := move q) (g := id) (p := t) (q := move p t) a ?_
    · simpa [forth, back] using hmap
    · intro s
      rw [← distanceSq_move h, Point.distanceSq_comm]
      rfl
  have hback : back b q = forth b p := by
    funext t
    have hmap := Neighbour.nearest_map_congr (f := id) (g := move p) (p := move q t) (q := t) b ?_
    · simpa [forth, back] using hmap
    · intro s
      rw [distanceSq_move h, Point.distanceSq_comm]
      rfl
  rw [pairs_eq, pairs_eq, hforth, hback, List.map_append, List.map_map, Prod.swap_swap_eq,
    List.map_id]
  exact List.perm_append_comm

end Alignment

end ScanMatch
