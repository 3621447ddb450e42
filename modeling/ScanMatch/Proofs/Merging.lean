import ScanMatch.Proofs.Partition
import ScanMatch.Proofs.Ranges

/-! # Merged and single points

Two engines that differ only in how their scans group points go through the same runs, step by
step. Their caches are asked for the same sets under the same keys, and each pair of sets is made
of the same cells.
-/
namespace ScanMatch

namespace Checked

variable {ε α β γ δ : Type}

/-- Both computations answer, and so that their answers are related, or both fail alike. -/
def Both (P : α → β → Prop) : Except ε α → Except ε β → Prop
  | .ok x, .ok y => P x y
  | .error f, .error f' => f = f'
  | _, _ => False

variable {P : α → β → Prop} {Q : γ → δ → Prop} {a : Except ε α} {b : Except ε β}

theorem Both.bind {f : α → Except ε γ} {g : β → Except ε δ} (h : Both P a b)
    (hfg : ∀ x y, P x y → Both Q (f x) (g y)) : Both Q (a >>= f) (b >>= g) := by
  cases a <;> cases b
  · exact h
  · cases h
  · cases h
  · exact hfg _ _ h

/-- Where both computations start alike, what follows is compared. -/
theorem Both.bind_self {f : α → Except ε γ} {g : α → Except ε δ}
    (hfg : ∀ x, a = .ok x → Both Q (f x) (g x)) : Both Q (a >>= f) (a >>= g) := by
  cases a with
  | ok x => exact hfg x rfl
  | error f => exact rfl

theorem Both.map {f : α → γ} {g : β → δ} (h : Both P a b)
    (hfg : ∀ x y, P x y → Q (f x) (g y)) : Both Q (a.map f) (b.map g) := by
  cases a <;> cases b
  · exact h
  · cases h
  · cases h
  · exact hfg _ _ h

theorem Both.eq {a b : Except ε α} (h : Both (· = ·) a b) : a = b := by
  cases a <;> cases b
  · exact congrArg Except.error h
  · cases h
  · cases h
  · exact congrArg Except.ok h

theorem Both.of_ok {x : α} (h : Both P a b) (hx : a = .ok x) : ∃ y, b = .ok y ∧ P x y := by
  subst hx
  cases b with
  | ok y => exact ⟨y, rfl, h⟩
  | error f => cases h

theorem Both.of_error {f : ε} (h : Both P a b) (hf : a = .error f) : b = .error f := by
  subst hf
  cases b with
  | ok y => cases h
  | error f' => exact congrArg Except.error h.symm

end Checked

open Checked (Both)

/-- Both sets are made of the same cells, in whatever groups. -/
structure CellSet.Alike (s s' : CellSet) : Prop where
  grouped : ∃ merge merge' cells, s.cells = group merge cells ∧ s'.cells = group merge' cells ∧
    cells.length ≤ 4294967295
  totalWeight_eq : s.totalWeight = s'.totalWeight

structure SharedSet.Alike (s s' : SharedSet) : Prop where
  serial_eq : s.serial = s'.serial
  set : s.set.Alike s'.set

theorem CellSet.both_ofCells (merge merge' : Bool) (cells : List Cell) :
    Both Alike (ofCells merge cells) (ofCells merge' cells) := by
  rw [ofCells_eq, ofCells_eq]
  by_cases hsize : cells.length ≤ 4294967295
  · rw [Checked.nat32_of_le hsize]
    exact ⟨⟨merge, merge', cells, rfl, rfl, hsize⟩, rfl⟩
  · rw [Checked.nat32, if_neg hsize]
    exact rfl

variable {S R : Type} [Scalar R] [Precision S R]

theorem CellSet.both_quantize (points : Array (Point S)) (metersPerPixel : S) (theta : R)
    (level : Nat) (merge merge' : Bool) :
    Both Alike (quantize points metersPerPixel theta level merge)
      (quantize points metersPerPixel theta level merge') := by
  rw [quantize, quantize]
  apply Both.bind_self
  intro d _
  exact both_ofCells merge merge' _

namespace ScanCache

/-- The caches of one scan were asked the same, and the second one merges or not. -/
structure Alike (merge : Bool) (c c' : ScanCache S) : Prop where
  points_eq : c.points = c'.points
  made_eq : c.made = c'.made
  merge_eq : c'.merge = merge
  sets : ∀ key : CacheKey, Option.Rel SharedSet.Alike c.sets[key]? c'.sets[key]?

variable {merge : Bool} {c c' : ScanCache S}

theorem alike_ofPoints (points : Array (Point S)) (merge merge' : Bool) :
    Alike merge' (ofPoints points merge) (ofPoints points merge') :=
  ⟨rfl, rfl, rfl, fun key => by simp [ofPoints]⟩

theorem Alike.clear (h : Alike merge c c') : Alike merge c.clear c'.clear :=
  ⟨h.points_eq, h.made_eq, h.merge_eq, fun key => by simp [ScanCache.clear]⟩

theorem Alike.get (h : Alike merge c c') (metersPerPixel : S) (theta : R) (level : Nat) :
    Both (fun out out' => out.1.Alike out'.1 ∧ Alike merge out.2 out'.2)
      (c.get metersPerPixel theta level) (c'.get metersPerPixel theta level) := by
  have hkey := h.sets (CacheKey.ofQuery metersPerPixel theta level)
  rw [ScanCache.get, ScanCache.get]
  dsimp only
  cases hs : c.sets[CacheKey.ofQuery metersPerPixel theta level]? with
  | some s =>
    rw [hs] at hkey
    cases hs' : c'.sets[CacheKey.ofQuery metersPerPixel theta level]? with
    | none =>
      rw [hs'] at hkey
      cases hkey
    | some s' =>
      rw [hs'] at hkey
      cases hkey with
      | some hset => exact ⟨hset, h⟩
  | none =>
    rw [hs] at hkey
    cases hs' : c'.sets[CacheKey.ofQuery metersPerPixel theta level]? with
    | some s' =>
      rw [hs'] at hkey
      cases hkey
    | none =>
      dsimp only
      rw [← h.points_eq]
      refine (CellSet.both_quantize c.points metersPerPixel theta level c.merge c'.merge).bind ?_
      intro set set' hset
      have hshared : SharedSet.Alike ⟨c.made, set⟩ ⟨c'.made, set'⟩ := ⟨h.made_eq, hset⟩
      refine ⟨hshared, rfl, congrArg (· + 1) h.made_eq, h.merge_eq, ?_⟩
      intro key
      dsimp only
      rw [Std.HashMap.getElem?_insert, Std.HashMap.getElem?_insert]
      split
      · exact Option.Rel.some hshared
      · exact h.sets key

end ScanCache

namespace Registration

variable {merge : Bool} {c c' : ScanCache S}

/-- Both caches give blocks the same scores. -/
theorem both_correlate (r : Registration S R) (h : c.Alike merge c') (rotation level : Nat)
    (x y : Int) :
    Both (fun out out' => out.1 = out'.1 ∧ out.2.Alike merge out'.2)
      (r.correlate c rotation level x y) (r.correlate c' rotation level x y) := by
  rw [correlate, correlate]
  apply Both.bind_self
  intro g _
  apply Both.bind_self
  intro theta _
  refine (h.get r.pyramid.metersPerPixel theta level).bind ?_
  rintro ⟨s, c₁⟩ ⟨s', c₁'⟩ ⟨hset, hcaches⟩
  apply Both.bind_self
  intro d _
  apply Both.bind_self
  intro offX _
  apply Both.bind_self
  intro offY _
  obtain ⟨⟨merge, merge', cells, hs, hs', hsize⟩, -⟩ := hset.set
  rw [hs, hs', weightedSum_group g offX offY merge merge' hsize]
  apply Both.bind_self
  intro sum _
  exact ⟨rfl, hcaches⟩

theorem both_judge (r : Registration S R) (h : c.Alike merge c') (whole : Bound R)
    (rotation level : Nat) (x y : Int) :
    Both (fun out out' => out.1 = out'.1 ∧ out.2.Alike merge out'.2)
      (r.judge c whole rotation level x y) (r.judge c' whole rotation level x y) := by
  rw [judge, judge]
  apply Both.bind_self
  intro d _
  apply Both.bind_self
  intro inY _
  cases inY with
  | false => exact ⟨rfl, h⟩
  | true =>
  apply Both.bind_self
  intro inX _
  cases inX with
  | false => exact ⟨rfl, h⟩
  | true =>
  refine (r.both_correlate h rotation level x y).bind ?_
  rintro ⟨raw, c₁⟩ ⟨raw', c₁'⟩ ⟨hraw, h₁⟩
  obtain rfl : raw = raw' := hraw
  dsimp only
  split
  all_goals
    split
    · exact ⟨rfl, h₁⟩
    · apply Both.bind_self
      intro penalty _
      apply Both.bind_self
      intro excess _
      exact ⟨rfl, h₁⟩

theorem both_judgeAll (r : Registration S R) (whole : Block R) (level : Nat)
    (quarters : List (Int × Int)) : ∀ {c c' : ScanCache S}, c.Alike merge c' →
      Both (fun out out' => out.1 = out'.1 ∧ out.2.Alike merge out'.2)
        (r.judgeAll whole level quarters c) (r.judgeAll whole level quarters c') := by
  induction quarters with
  | nil =>
    intro c c' h
    exact ⟨rfl, h⟩
  | cons q quarters ih =>
    intro c c' h
    rw [judgeAll, judgeAll]
    apply Both.bind_self
    intro x₀ _
    apply Both.bind_self
    intro x _
    apply Both.bind_self
    intro y₀ _
    apply Both.bind_self
    intro y _
    refine (r.both_judge h whole.bound whole.rotation level x y).bind ?_
    rintro ⟨verdict, c₁⟩ ⟨verdict', c₁'⟩ ⟨hverdict, h₁⟩
    obtain rfl : verdict = verdict' := hverdict
    refine (ih h₁).bind ?_
    rintro ⟨rest, c₂⟩ ⟨rest', c₂'⟩ ⟨hrest, h₂⟩
    obtain rfl : rest = rest' := hrest
    exact ⟨rfl, h₂⟩

end Registration

namespace Engine

section

variable {e : Engine S R} {block : Block R} {rest : Frontier R}

theorem next_of_none (h : e.frontier.pop? = none) : e.next = .ok (none, e) := by
  rw [Engine.next]
  split
  · rfl
  · next hpop =>
    rw [h] at hpop
    cases hpop

theorem next_of_single (h : e.frontier.pop? = some (block, rest)) (hlevel : block.level = 0) :
    e.next = ({ e with frontier := rest }.report block).map
      fun (out : Found R × Engine S R) => (some out.1, out.2) := by
  rw [Engine.next]
  split
  · next hpop =>
    rw [h] at hpop
    cases hpop
  · next block' rest' hpop =>
    obtain ⟨rfl, rfl⟩ := Prod.mk.inj (Option.some.inj (h.symm.trans hpop))
    split
    · cases { e with frontier := rest }.report block <;> rfl
    · next hlevel' => omega

theorem next_of_split {level : Nat} (h : e.frontier.pop? = some (block, rest))
    (hlevel : block.level = level + 1) :
    e.next = { e with frontier := rest }.expand block level >>= next := by
  rw [Engine.next]
  split
  · next hpop =>
    rw [h] at hpop
    cases hpop
  · next block' rest' hpop =>
    obtain ⟨rfl, rfl⟩ := Prod.mk.inj (Option.some.inj (h.symm.trans hpop))
    split
    · next hlevel' => omega
    · next level' hlevel' =>
      obtain rfl : level = level' := by omega
      split
      · next hexpand =>
        rw [hexpand]
        rfl
      · next hexpand =>
        rw [hexpand]
        rfl
end

/-- The engines differ in their cell sets only, and the scans of the second one are merged or not
as told. -/
structure Twins (merge : Nat → Bool) (e e' : Engine S R) : Prop where
  registrations_eq : e.registrations = e'.registrations
  frontier_eq : e.frontier = e'.frontier
  stats_eq : e.stats = e'.stats
  caches : ∀ i : Nat, Option.Rel (ScanCache.Alike (merge i)) e.caches[i]? e'.caches[i]?

/-- Both requests for the next translation are answered alike, or both fail alike. -/
def SameAnswer (merge : Nat → Bool) {α : Type} :
    Checked (α × Engine S R) → Checked (α × Engine S R) → Prop :=
  Both fun out out' => out.1 = out'.1 ∧ Twins merge out.2 out'.2

namespace Twins

variable {merge : Nat → Bool} {e e' : Engine S R}

omit [Scalar R] [Precision S R] in
theorem cache (h : Twins merge e e') {i : Nat} {c : ScanCache S} (hc : e.caches[i]? = some c) :
    ∃ c', e'.caches[i]? = some c' ∧ c.Alike (merge i) c' := by
  have hrel := h.caches i
  rw [hc] at hrel
  cases hc' : e'.caches[i]? with
  | none =>
    rw [hc'] at hrel
    cases hrel
  | some c' =>
    rw [hc'] at hrel
    cases hrel with
    | some hcc => exact ⟨c', rfl, hcc⟩

omit [Scalar R] [Precision S R] in
theorem size_eq (h : Twins merge e e') : e.caches.size = e'.caches.size := by
  apply le_antisymm
  · by_contra hn
    have hrel := h.caches e'.caches.size
    rw [Array.getElem?_eq_none (le_refl _), Array.getElem?_eq_getElem (not_le.mp hn)] at hrel
    cases hrel
  · by_contra hn
    have hrel := h.caches e.caches.size
    rw [Array.getElem?_eq_none (le_refl _), Array.getElem?_eq_getElem (not_le.mp hn)] at hrel
    cases hrel

omit [Scalar R] [Precision S R] in
theorem cache_none (h : Twins merge e e') {i : Nat} (hc : e.caches[i]? = none) :
    e'.caches[i]? = none := by
  rw [Array.getElem?_eq_none_iff] at hc ⊢
  rwa [← h.size_eq]

omit [Scalar R] [Precision S R] in
theorem set (h : Twins merge e e') {i : Nat} {c c' : ScanCache S} (hcc : c.Alike (merge i) c') :
    Twins merge { e with caches := e.caches.set! i c }
      { e' with caches := e'.caches.set! i c' } where
  registrations_eq := h.registrations_eq
  frontier_eq := h.frontier_eq
  stats_eq := h.stats_eq
  caches j := by
    dsimp only
    rw [Array.set!_eq_setIfInBounds, Array.set!_eq_setIfInBounds, Array.getElem?_setIfInBounds,
      Array.getElem?_setIfInBounds, h.size_eq]
    by_cases hij : i = j
    · subst hij
      rw [if_pos rfl, if_pos rfl]
      split
      · exact Option.Rel.some hcc
      · exact Option.Rel.none
    · rw [if_neg hij, if_neg hij]
      exact h.caches j

omit [Scalar R] [Precision S R] in
theorem clearCache (h : Twins merge e e') (i : Nat) :
    Twins merge (e.clearCache i) (e'.clearCache i) where
  registrations_eq := h.registrations_eq
  frontier_eq := h.frontier_eq
  stats_eq := h.stats_eq
  caches j := by
    have hrel := h.caches j
    rw [Engine.clearCache, Engine.clearCache, Array.getElem?_modify, Array.getElem?_modify]
    by_cases hij : i = j
    · rw [if_pos hij, if_pos hij]
      generalize e.caches[j]? = c at hrel ⊢
      generalize e'.caches[j]? = c' at hrel ⊢
      cases hrel with
      | none => exact Option.Rel.none
      | some hcc => exact Option.Rel.some hcc.clear
    · rw [if_neg hij, if_neg hij]
      exact hrel

omit [Scalar R] [Precision S R] in
theorem withFrontier (h : Twins merge e e') (rest : Frontier R) :
    Twins merge { e with frontier := rest } { e' with frontier := rest } :=
  ⟨h.registrations_eq, rfl, h.stats_eq, h.caches⟩

omit [Precision S R] in
theorem add (h : Twins merge e e') (i : Nat) (pyramid : Pyramid S) (request : Request R) :
    Both (Twins merge) (e.add i pyramid request) (e'.add i pyramid request) := by
  rw [Engine.add, Engine.add, ← h.registrations_eq, ← h.frontier_eq]
  by_cases hx : request.tx1 < request.tx0
  · rw [if_pos hx, if_pos hx]
    exact rfl
  by_cases hy : request.ty1 < request.ty0
  · rw [if_neg hx, if_pos hy, if_neg hx, if_pos hy]
    exact rfl
  by_cases hn : pyramid.numLevels < 2
  · rw [if_neg hx, if_neg hy, if_pos hn, if_neg hx, if_neg hy, if_pos hn]
    exact rfl
  rw [if_neg hx, if_neg hy, if_neg hn, if_neg hx, if_neg hy, if_neg hn]
  apply Both.bind_self
  intro level _
  apply Both.bind_self
  intro d _
  apply Both.bind_self
  intro r _
  apply Both.bind_self
  intro blocks _
  exact ⟨rfl, rfl, h.stats_eq, h.caches⟩

theorem expand (h : Twins merge e e') (whole : Block R) (level : Nat) :
    Both (Twins merge) (e.expand whole level) (e'.expand whole level) := by
  cases hr : e.registrations[whole.registration]? with
  | none =>
    rw [Engine.expand, Engine.expand, Engine.registration, Engine.registration,
      ← h.registrations_eq, hr]
    exact rfl
  | some r =>
  have hr' := hr
  rw [h.registrations_eq] at hr'
  cases hc : e.caches[r.cache]? with
  | none =>
    have hc' := h.cache_none hc
    rw [Engine.expand, Engine.expand, Engine.registration, Engine.registration, hr, hr']
    simp only [bind, Except.bind, hc, hc']
    exact rfl
  | some c =>
    obtain ⟨c', hc', hcc⟩ := h.cache hc
    rw [expand_eq hr hc, expand_eq hr' hc']
    refine (r.both_judgeAll whole level Block.quarters hcc).map ?_
    rintro ⟨judged, c₁⟩ ⟨judged', c₁'⟩ ⟨hjudged, h₁⟩
    obtain rfl : judged = judged' := hjudged
    refine ⟨h.registrations_eq, ?_, ?_, (h.set h₁).caches⟩
    · rw [afterSplit, afterSplit, h.frontier_eq]
    · rw [afterSplit, afterSplit, h.stats_eq]

theorem droppedQuarters (h : Twins merge e e') (whole : Block R) (level : Nat) :
    e.droppedQuarters whole level = e'.droppedQuarters whole level := by
  rw [Engine.droppedQuarters, Engine.droppedQuarters, ← h.registrations_eq]
  cases e.registrations[whole.registration]? with
  | none => rfl
  | some r =>
  cases hc : e.caches[r.cache]? with
  | none =>
    have hc' := h.cache_none hc
    simp only [hc, hc']
  | some c =>
    obtain ⟨c', hc', hcc⟩ := h.cache hc
    have hjudged := r.both_judgeAll whole level Block.quarters hcc
    simp only [hc, hc']
    cases hj : r.judgeAll whole level Block.quarters c with
    | error f => rw [hjudged.of_error hj]
    | ok out =>
      obtain ⟨⟨judged, c₁'⟩, hj', heq, -⟩ := hjudged.of_ok hj
      rw [hj']
      dsimp only at heq ⊢
      rw [heq]

theorem report (h : Twins merge e e') (block : Block R) :
    SameAnswer merge (e.report block) (e'.report block) := by
  rw [Engine.report, Engine.report, Engine.registration, Engine.registration, h.registrations_eq,
    h.stats_eq]
  apply Both.bind_self
  intro r _
  apply Both.bind_self
  intro theta _
  exact ⟨rfl, rfl, h.frontier_eq, rfl, h.caches⟩

/-- However the request for the next translation ends, it can end so for the twin. -/
theorem next_take {take : Frontier R → Block R → Frontier R → Prop}
    {out : Checked (Option (Found R) × Engine S R)} (h : Twins merge e e') (hn : Next take e out) :
    ∃ out', Next take e' out' ∧ SameAnswer merge out out' := by
  induction hn generalizing e' with
  | drained hempty =>
    refine ⟨_, Next.drained ?_, rfl, h⟩
    rwa [← h.frontier_eq]
  | report ht hl hr =>
    rw [h.frontier_eq] at ht
    obtain ⟨⟨found, e₁'⟩, hr', heq, h₁⟩ := ((h.withFrontier _).report _).of_ok hr
    exact ⟨_, Next.report ht hl hr', congrArg some heq, h₁⟩
  | reportFault ht hl hr =>
    rw [h.frontier_eq] at ht
    exact ⟨_, Next.reportFault ht hl (((h.withFrontier _).report _).of_error hr), rfl⟩
  | split ht hl he _ ih =>
    rw [h.frontier_eq] at ht
    obtain ⟨e₁', he', h₁⟩ := ((h.withFrontier _).expand _ _).of_ok he
    obtain ⟨out', hn', hsame⟩ := ih h₁
    exact ⟨out', Next.split ht hl he' hn', hsame⟩
  | splitFault ht hl he =>
    rw [h.frontier_eq] at ht
    exact ⟨_, Next.splitFault ht hl (((h.withFrontier _).expand _ _).of_error he), rfl⟩

theorem next (h : Twins merge e e') : SameAnswer merge e.next e'.next := by
  fun_induction Engine.next e generalizing e' with
  | case1 e hpop =>
    rw [h.frontier_eq] at hpop
    rw [next_of_none hpop]
    exact ⟨rfl, h⟩
  | case2 e block rest hpop hlevel =>
    rw [h.frontier_eq] at hpop
    rw [next_of_single hpop hlevel]
    exact ((h.withFrontier rest).report block).map fun x y hxy => ⟨congrArg some hxy.1, hxy.2⟩
  | case3 e block rest hpop level hlevel f hexpand =>
    rw [h.frontier_eq] at hpop
    rw [next_of_split hpop hlevel, ((h.withFrontier rest).expand block level).of_error hexpand]
    exact rfl
  | case4 e block rest hpop level hlevel e₁ hexpand ih =>
    rw [h.frontier_eq] at hpop
    obtain ⟨e₁', hexpand', h₁⟩ := ((h.withFrontier rest).expand block level).of_ok hexpand
    rw [next_of_split hpop hlevel, hexpand']
    exact ih h₁

theorem takeOnto (n : Nat) : ∀ {e e' : Engine S R} (taken : Array (Found R)), Twins merge e e' →
    SameAnswer merge (Engine.takeOnto taken n e) (Engine.takeOnto taken n e') := by
  induction n with
  | zero =>
    intro e e' taken h
    exact ⟨rfl, h⟩
  | succ n ih =>
    intro e e' taken h
    have hnext := h.next
    rw [Engine.takeOnto, Engine.takeOnto]
    cases hn : e.next with
    | error f =>
      rw [hnext.of_error hn]
      exact rfl
    | ok out =>
      obtain ⟨out, e₁⟩ := out
      obtain ⟨⟨out', e₁'⟩, hn', heq, h₁⟩ := hnext.of_ok hn
      obtain rfl : out = out' := heq
      rw [hn']
      cases out with
      | none => exact ⟨rfl, h₁⟩
      | some found => exact ih _ h₁

end Twins

variable {e : Engine S R} {history : History S R}
  {take : Frontier R → Block R → Frontier R → Prop}

/-- The same run, with the scans merged or not as told. -/
theorem Run.exists_twin (hrun : Run take e history)
    (merge : Nat → Bool) : ∃ e', Run take e' history ∧ Twins merge e e' := by
  induction hrun with
  | start scans =>
    refine ⟨_, RunIf.start (scans.mapIdx fun i s => (s.1, merge i)), rfl, rfl, rfl, ?_⟩
    intro i
    simp only [ofCaches, List.getElem?_toArray, List.getElem?_map, List.getElem?_mapIdx]
    cases scans[i]? with
    | none => exact Option.Rel.none
    | some s => exact Option.Rel.some (ScanCache.alike_ofPoints s.1 s.2 (merge i))
  | add _ hi hp ha ih =>
    obtain ⟨e', hrun', h⟩ := ih
    obtain ⟨e₁', ha', h₁⟩ := (h.add _ _ _).of_ok ha
    exact ⟨e₁', hrun'.add (h.size_eq ▸ hi) hp ha', h₁⟩
  | clear i _ ih =>
    obtain ⟨e', hrun', h⟩ := ih
    exact ⟨_, hrun'.clear i, h.clearCache i⟩
  | query _ hc hq ih =>
    obtain ⟨e', hrun', h⟩ := ih
    obtain ⟨c', hc', hcc⟩ := h.cache hc
    obtain ⟨⟨shared, c₁'⟩, hq', -, h₁⟩ := (hcc.get _ _ _).of_ok hq
    exact ⟨_, hrun'.query hc' hq', h.set h₁⟩
  | split _ ht hl _ he ih =>
    obtain ⟨e', hrun', h⟩ := ih
    rw [h.frontier_eq] at ht
    obtain ⟨e₁', he', h₁⟩ := ((h.withFrontier _).expand _ _).of_ok he
    rw [(h.withFrontier _).droppedQuarters]
    exact ⟨_, hrun'.split ht hl trivial he', h₁⟩
  | report _ ht hl hr ih =>
    obtain ⟨e', hrun', h⟩ := ih
    rw [h.frontier_eq] at ht
    obtain ⟨⟨found, e₁'⟩, hr', heq, h₁⟩ := ((h.withFrontier _).report _).of_ok hr
    obtain rfl := heq
    exact ⟨_, hrun'.report ht hl hr', h₁⟩

/-- Merging points changes no answer and no counter, under any way of breaking ties. -/
theorem Run.merging_unnoticed (hrun : Run take e history) (merge : Nat → Bool) :
    ∃ e', Run take e' history ∧ Twins merge e e' ∧
      (∀ i pyramid request,
        Both (Twins merge) (e.add i pyramid request) (e'.add i pyramid request)) ∧
      (∀ (r : Registration S R) c c',
        e.caches[r.cache]? = some c → e'.caches[r.cache]? = some c' → ∀ rotation level x y,
          (r.correlate c rotation level x y).map Prod.fst =
            (r.correlate c' rotation level x y).map Prod.fst) ∧
      (∀ out, Next take e out → ∃ out', Next take e' out' ∧ SameAnswer merge out out') ∧
      SameAnswer merge e.next e'.next ∧ ∀ n, SameAnswer merge (e.take n) (e'.take n) := by
  obtain ⟨e', hrun', h⟩ := hrun.exists_twin merge
  refine ⟨e', hrun', h, h.add, ?_, fun out hn => h.next_take hn, h.next, fun n => h.takeOnto n _⟩
  intro r c c₁' hc hc₁' rotation level x y
  obtain ⟨c', hc', hcc⟩ := h.cache hc
  obtain rfl := Option.some.inj (hc'.symm.trans hc₁')
  exact ((r.both_correlate hcc rotation level x y).map fun _ _ hout => hout.1).eq

theorem Run.merging_unnoticed_small : ∃ (e e' : Engine ℝ ℝ) (i : ℕ) (c c' : ScanCache ℝ),
    Run Frontier.Takes e ⟨[], [], []⟩ ∧ Run Frontier.Takes e' ⟨[], [], []⟩ ∧
      e.frontier = e'.frontier ∧ e.frontier.toList ≠ [] ∧ e.caches[i]? = some c ∧
      e'.caches[i]? = some c' ∧ c'.merge = !c.merge ∧
      ∀ n, SameAnswer (fun _ => !c.merge) (e.take n) (e'.take n) := by
  obtain ⟨e, r, hrun, hregistrations, -, -, -, -, whole, rest, hpop, -⟩ :=
    Run.exists_small Frontier.Takes
  have hr : e.registrations[0]? = some r := by simp [hregistrations]
  have hcache := (hrun.admits hr).cache_lt
  rw [scans_size] at hcache
  have hc := Array.getElem?_eq_getElem hcache
  obtain ⟨e', hrun', h, -, -, -, -, hsame⟩ := hrun.merging_unnoticed
    fun _ => !e.caches[r.cache].merge
  obtain ⟨c', hc', hcc⟩ := h.cache hc
  refine ⟨e, e', r.cache, _, c', hrun, hrun', h.frontier_eq, ?_, hc, hc', hcc.merge_eq, hsame⟩
  intro hempty
  have hperm := Frontier.toList_pop? hpop
  rw [hempty] at hperm
  cases hperm.nil_eq

end Engine

end ScanMatch
