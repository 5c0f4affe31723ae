import OmsFormal.Ewma
import OmsFormal.WorsenedVenue
import OmsFormal.EffectiveRanking

/-!
# Round trip times and what they cost

Each venue's latency is a running average of capped samples. The cost model turns
it into a penalty and a fill rate, scaled by volatility and by the imbalance that
leans against the order. Slower samples never make a venue look better to a
taker, and a maker order does not race anyone.
-/

namespace OmsFormal.Sor
open Rounding Ewma
set_option autoImplicit false

namespace LatencyTracker

def kAlpha : ℚ := 1 / 10
def kMaxRttUs : ℚ := 10000

/-- The conservative default. -/
def init : LatencyTracker := ⟨500⟩

def update (rttUs : ℚ) (t : LatencyTracker) : LatencyTracker :=
  let capped := if rttUs < kMaxRttUs then rttUs else kMaxRttUs
  ⟨kAlpha * capped + (1 - kAlpha) * t.ewmaRttUs⟩

/-- The tracker after a sequence of samples. -/
def measure (samples : List ℚ) (t : LatencyTracker) : LatencyTracker :=
  samples.foldl (fun t rttUs => t.update rttUs) t

variable {t : LatencyTracker} {samples : List ℚ}

theorem update_eq (rttUs : ℚ) (t : LatencyTracker) :
    (t.update rttUs).ewmaRttUs = blend kAlpha t.ewmaRttUs (min rttUs kMaxRttUs) := by
  have hcap : (if rttUs < kMaxRttUs then rttUs else kMaxRttUs) = min rttUs kMaxRttUs := by
    rw [min_def_lt]
  rw [update, hcap, blend]

theorem measure_eq (samples : List ℚ) (t : LatencyTracker) :
    (t.measure samples).ewmaRttUs = average kAlpha t.ewmaRttUs (samples.map (min · kMaxRttUs)) := by
  induction samples generalizing t with
  | nil => rfl
  | cons s samples ih =>
    have hstep := ih (t.update s)
    rw [update_eq] at hstep
    exact hstep

theorem kAlpha_nonneg : 0 ≤ kAlpha := by norm_num [kAlpha]

theorem kAlpha_le_one : kAlpha ≤ 1 := by norm_num [kAlpha]

theorem measure_mono {fast slow : List ℚ} (h : List.Forall₂ (· ≤ ·) fast slow) (t : LatencyTracker) :
    (t.measure fast).ewmaRttUs ≤ (t.measure slow).ewmaRttUs := by
  rw [measure_eq, measure_eq]
  refine average_mono kAlpha_nonneg kAlpha_le_one le_rfl ?_
  rw [List.forall₂_map_left_iff, List.forall₂_map_right_iff]
  exact h.imp fun _ _ hle => min_le_min_right _ hle

theorem measure_append (old recent : List ℚ) (t : LatencyTracker) :
    t.measure (old ++ recent) = (t.measure old).measure recent := List.foldl_append

theorem measure_bounded (hsamples : ∀ s ∈ samples, 0 ≤ s) (ht : 0 ≤ t.ewmaRttUs ∧ t.ewmaRttUs ≤ kMaxRttUs) :
    0 ≤ (t.measure samples).ewmaRttUs ∧ (t.measure samples).ewmaRttUs ≤ kMaxRttUs := by
  rw [measure_eq]
  constructor
  · refine le_average kAlpha_nonneg kAlpha_le_one ht.1 fun s hs => ?_
    obtain ⟨x, hx, rfl⟩ := List.mem_map.mp hs
    exact le_min (hsamples x hx) (by norm_num [kMaxRttUs])
  · refine average_le kAlpha_nonneg kAlpha_le_one ht.2 fun s hs => ?_
    obtain ⟨x, -, rfl⟩ := List.mem_map.mp hs
    exact min_le_right _ _

/-- Recent samples between `lo` and `hi` bring the average there, whatever came before. -/
theorem measure_near {lo hi : ℚ} (hlo : 0 ≤ lo) (hle : lo ≤ hi) (hhi : hi ≤ kMaxRttUs)
    (ht : 0 ≤ t.ewmaRttUs ∧ t.ewmaRttUs ≤ kMaxRttUs) (hrecent : ∀ s ∈ samples, lo ≤ s ∧ s ≤ hi) :
    lo - (9 / 10) ^ samples.length * kMaxRttUs ≤ (t.measure samples).ewmaRttUs ∧
    (t.measure samples).ewmaRttUs ≤ hi + (9 / 10) ^ samples.length * kMaxRttUs := by
  have hcapped : ∀ s ∈ samples.map (min · kMaxRttUs), lo ≤ s ∧ s ≤ hi := by
    intro s hs
    obtain ⟨x, hx, rfl⟩ := List.mem_map.mp hs
    rw [min_eq_left ((hrecent x hx).2.trans hhi)]
    exact hrecent x hx
  have hnear := average_near (m := t.ewmaRttUs) kAlpha_nonneg kAlpha_le_one ⟨le_refl lo, hle⟩ hcapped
  have hkeep : 1 - kAlpha = 9 / 10 := by norm_num [kAlpha]
  rw [← measure_eq, List.length_map, hkeep] at hnear
  have hpow : (0 : ℚ) ≤ (9 / 10) ^ samples.length := by positivity
  have hlow := mul_le_mul_of_nonneg_left (show -kMaxRttUs ≤ t.ewmaRttUs - lo by linarith) hpow
  have hhigh := mul_le_mul_of_nonneg_left (show t.ewmaRttUs - lo ≤ kMaxRttUs by linarith) hpow
  constructor
  · linarith [hnear.1]
  · linarith [hnear.2]

theorem latencyCostAdj_nonneg (h : 0 ≤ t.ewmaRttUs) : 0 ≤ t.latencyCostAdj := by
  have hk : (0 : ℚ) ≤ kPenaltyBpsPerUs := by norm_num [kPenaltyBpsPerUs]
  exact mul_nonneg (mul_nonneg hk h) (by norm_num)

theorem dynamicCostAdj_eq (t : LatencyTracker) (vol imb : ℚ) :
    t.dynamicCostAdj vol imb = t.latencyCostAdj * ((1 + 2 * vol) * (1 + 3 / 2 * max imb 0)) := by
  have himb : (if imb > 0 then imb else 0) = max imb 0 := by
    split
    · rename_i hpos
      exact (max_eq_left (le_of_lt hpos)).symm
    · rename_i hneg
      exact (max_eq_right (not_lt.mp hneg)).symm
  rw [dynamicCostAdj, himb, latencyCostAdj, kVolSensitivity, kImbSensitivity]
  ring

/-- In the quietest regime the cost is the static one, in the worst one 7.5 times that. -/
theorem dynamicCostAdj_mem (ht : 0 ≤ t.ewmaRttUs) {vol imb : ℚ} (hvol : 0 ≤ vol ∧ vol ≤ 1) (himb : imb ≤ 1) :
    t.latencyCostAdj ≤ t.dynamicCostAdj vol imb ∧ t.dynamicCostAdj vol imb ≤ 15 / 2 * t.latencyCostAdj := by
  have hcost := latencyCostAdj_nonneg ht
  have hpos : 0 ≤ max imb 0 := le_max_right _ _
  have hone : max imb 0 ≤ 1 := max_le himb zero_le_one
  have hlow : 1 ≤ (1 + 2 * vol) * (1 + 3 / 2 * max imb 0) := by nlinarith [hvol.1]
  have hhigh : (1 + 2 * vol) * (1 + 3 / 2 * max imb 0) ≤ 15 / 2 := by nlinarith [hvol.2, hvol.1]
  rw [dynamicCostAdj_eq]
  constructor
  · exact le_mul_of_one_le_right hcost hlow
  · rw [mul_comm (15 / 2 : ℚ)]
    exact mul_le_mul_of_nonneg_left hhigh hcost

theorem dynamicCostAdj_mono {t' : LatencyTracker} (h : t.ewmaRttUs ≤ t'.ewmaRttUs) {vol : ℚ} (hvol : 0 ≤ vol)
    (imb : ℚ) : t.dynamicCostAdj vol imb ≤ t'.dynamicCostAdj vol imb := by
  have hk : (0 : ℚ) ≤ kPenaltyBpsPerUs := by norm_num [kPenaltyBpsPerUs]
  have hcost : t.latencyCostAdj ≤ t'.latencyCostAdj :=
    mul_le_mul_of_nonneg_right (mul_le_mul_of_nonneg_left h hk) (by norm_num)
  rw [dynamicCostAdj_eq, dynamicCostAdj_eq]
  refine mul_le_mul_of_nonneg_right hcost (mul_nonneg (by linarith) ?_)
  have hpos : 0 ≤ max imb 0 := le_max_right _ _
  linarith

end LatencyTracker

section Slower
variable {eng : RoutingEngine} {ctx : RoutingContext} {x : ℕ} {fast slow : List ℚ}

def ExchangeState.measured (samples : List ℚ) (state : ExchangeState) : ExchangeState :=
  { state with latency := state.latency.measure samples }

/-- The routing request after venue `x` has taken the given samples. -/
def RoutingContext.measured (x : ℕ) (samples : List ℚ) (ctx : RoutingContext) : RoutingContext :=
  { ctx with states := Function.update ctx.states x ((ctx.states x).measured samples) }

/-- Venues that differ in what was measured of them only. -/
def ExchangeState.SameBut (a b : ExchangeState) : Prop := b = { a with latency := b.latency }

theorem measured_sameBut (ex : ℕ) : ((ctx.measured x fast).states ex).SameBut
    ((ctx.measured x slow).states ex) := by
  by_cases hx : ex = x
  · subst hx
    simp [RoutingContext.measured, ExchangeState.measured, ExchangeState.SameBut]
  · simp [RoutingContext.measured, ExchangeState.SameBut, hx]

theorem measured_self (x : ℕ) (samples : List ℚ) (ctx : RoutingContext) :
    (ctx.measured x samples).states x = (ctx.states x).measured samples := Function.update_self _ _ _

theorem measured_other {ex : ℕ} (hx : ex ≠ x) (samples : List ℚ) :
    (ctx.measured x samples).states ex = ctx.states ex := Function.update_of_ne hx _ _

/-- A slower venue fills no better: a rate that leaves the floor is a positive multiple of `exp`. -/
theorem estimateFillRate_anti (hmono : Monotone eng.exp) (hpos : ∀ q, 0 ≤ eng.exp q) {rtt rtt' : ℚ}
    (h : rtt ≤ rtt') (vol imb : ℚ) :
    eng.estimateFillRate rtt' vol imb ≤ eng.estimateFillRate rtt vol imb := by
  have hk : (0 : ℚ) ≤ kLatDecay := by norm_num [kLatDecay]
  have hexp : eng.exp (-kLatDecay * rtt') ≤ eng.exp (-kLatDecay * rtt) :=
    hmono (by nlinarith)
  unfold RoutingEngine.estimateFillRate
  simp only
  generalize (1 : ℚ) - kVolFillPenalty * vol = v
  generalize (1 : ℚ) - kImbFillPenalty * (if imb > 0 then imb else 0) = b
  rcases le_or_gt 0 (v * b) with hnn | hneg
  · have hrate : eng.exp (-kLatDecay * rtt') * v * b ≤ eng.exp (-kLatDecay * rtt) * v * b := by
      rw [mul_assoc, mul_assoc]
      exact mul_le_mul_of_nonneg_right hexp hnn
    split
    · split
      · exact hrate
      · linarith
    · split
      · linarith
      · exact le_rfl
  · -- the regime alone has pushed the rate below the floor
    have hfloor : eng.exp (-kLatDecay * rtt') * v * b ≤ kMinFillRate := by
      have hnp := mul_nonpos_of_nonneg_of_nonpos (hpos (-kLatDecay * rtt')) hneg.le
      rw [mul_assoc]
      exact hnp.trans (by norm_num [kMinFillRate])
    rw [if_neg (not_lt.mpr hfloor)]
    split
    · rename_i hgt
      exact le_of_lt hgt
    · exact le_rfl

/-- Samples that are all as slow or slower worsen a venue: the penalty is no smaller, the fill rate no
larger, and nothing else moves. -/
theorem slower_worsened (hmono : Monotone eng.exp) (hpos : ∀ q, 0 ≤ eng.exp q)
    (hvol : 0 ≤ ctx.shortVolFactor)
    (hprice : 0 ≤ (((ctx.states x).book.sides (takerSide ctx.dir)).head?.map Level.priceTicks).getD 0)
    (h : List.Forall₂ (· ≤ ·) fast slow) :
    Worsened eng eng (ctx.measured x fast) (ctx.measured x slow) x := by
  have hrtt := LatencyTracker.measure_mono h (ctx.states x).latency
  have hsame (ex : ℕ) : ((ctx.measured x fast).states ex).SameBut ((ctx.measured x slow).states ex) :=
    measured_sameBut ex
  refine ⟨rfl, rfl, rfl, rfl, rfl, fun ex => ?_, fun ex => ?_, fun ex => ?_, fun ex => ?_, fun ex hx => ?_,
    ?_, ?_⟩
  · rw [hsame ex]
  · rw [hsame ex]
  · rw [hsame ex]
  · rw [hsame ex]
  · rw [measured_other hx, measured_other hx]
    exact ⟨rfl, rfl⟩
  · rw [measured_self, measured_self]
    refine roundHalfAway_mono (mul_le_mul_of_nonneg_left ?_ (by exact_mod_cast hprice))
    exact add_le_add_right (LatencyTracker.dynamicCostAdj_mono hrtt hvol _) _
  · rw [measured_self, measured_self]
    exact estimateFillRate_anti hmono hpos hrtt _ _

/-- The same touch of venues that differ in their latency only. -/
inductive SameTouch : Option MakerTouch → Option MakerTouch → Prop
  | none : SameTouch none none
  | some {a b : ExchangeState} (h : a.SameBut b) (raw eff : ℤ) :
      SameTouch (some ⟨a, raw, eff⟩) (some ⟨b, raw, eff⟩)

theorem makerTouch_same {a b : ExchangeState} (h : a.SameBut b) :
    SameTouch (eng.makerTouch ctx a) (eng.makerTouch ctx b) := by
  have hbook := congrArg ExchangeState.book h
  have hid := congrArg ExchangeState.exchangeId h
  have hon := congrArg ExchangeState.enabled h
  simp only at hbook hid hon
  unfold RoutingEngine.makerTouch
  rw [hbook, hid, hon]
  split
  · exact .none
  · split
    · exact .none
    · rename_i lv _ _
      simp only
      by_cases hlimit : ctx.limitPrice > 0 ∧ (if dirSign ctx.dir > 0 then
          lv.priceTicks > roundHalfAway (ctx.limitPrice / a.book.tickSize)
        else lv.priceTicks < roundHalfAway (ctx.limitPrice / a.book.tickSize))
      · rw [if_pos hlimit, if_pos hlimit]
        exact .none
      · rw [if_neg hlimit, if_neg hlimit]
        exact .some h _ _

theorem betterTouch_same {best best' : Option MakerTouch} (hbest : SameTouch best best') (ex : ℕ) :
    SameTouch (eng.betterTouch (ctx.measured x fast) best ex)
      (eng.betterTouch (ctx.measured x slow) best' ex) := by
  have htouch : SameTouch (eng.makerTouch ctx ((ctx.measured x fast).states ex))
      (eng.makerTouch ctx ((ctx.measured x slow).states ex)) := makerTouch_same (measured_sameBut ex)
  change SameTouch (eng.makerTouch (ctx.measured x fast) ((ctx.measured x fast).states ex))
    (eng.makerTouch (ctx.measured x slow) ((ctx.measured x slow).states ex)) at htouch
  unfold RoutingEngine.betterTouch
  generalize eng.makerTouch (ctx.measured x fast) ((ctx.measured x fast).states ex) = t at htouch ⊢
  generalize eng.makerTouch (ctx.measured x slow) ((ctx.measured x slow).states ex) = t' at htouch ⊢
  cases htouch with
  | none => exact hbest
  | some ht raw eff =>
    cases hbest with
    | none => exact .some ht raw eff
    | some hb raw' eff' =>
      simp only
      split
      · exact .some ht raw eff
      · exact .some hb raw' eff'

/-- A maker order is placed without a look at the latency. -/
theorem makerPlacement_measured (eng : RoutingEngine) (ctx : RoutingContext) (x : ℕ) (fast slow : List ℚ) :
    eng.calculateMakerPlacement (ctx.measured x slow) =
      eng.calculateMakerPlacement (ctx.measured x fast) := by
  have hbest : SameTouch (eng.bestTouch (ctx.measured x fast)) (eng.bestTouch (ctx.measured x slow)) := by
    have hscan (exs : List ℕ) (best best' : Option MakerTouch) (h : SameTouch best best') :
        SameTouch (exs.foldl (eng.betterTouch (ctx.measured x fast)) best)
          (exs.foldl (eng.betterTouch (ctx.measured x slow)) best') := by
      induction exs generalizing best best' with
      | nil => exact h
      | cons ex exs ih => exact ih _ _ (betterTouch_same h ex)
    exact hscan (List.range ctx.activeExchanges) none none .none
  have href : resolveReferenceLotSize (ctx.measured x slow) =
      resolveReferenceLotSize (ctx.measured x fast) := by
    have hsame : ((ctx.measured x fast).states 0).SameBut ((ctx.measured x slow).states 0) :=
      measured_sameBut 0
    have hbook := congrArg ExchangeState.book hsame
    unfold resolveReferenceLotSize
    rw [hbook]
    rfl
  unfold RoutingEngine.calculateMakerPlacement
  generalize eng.bestTouch (ctx.measured x fast) = best at hbest ⊢
  generalize eng.bestTouch (ctx.measured x slow) = best' at hbest ⊢
  cases hbest with
  | none => rfl
  | some h raw eff =>
    rw [h]
    simp only [href]
    rfl

/-- A venue that measures as slow or slower, sample by sample, only gets worse for a taker, with
nothing else moved, and a maker order is placed as before. -/
theorem slower_worsens_takers (eng : RoutingEngine) (ctx : RoutingContext) (x : ℕ) (fast slow : List ℚ)
    (hmono : Monotone eng.exp) (hpos : ∀ q, 0 ≤ eng.exp q) (hvol : 0 ≤ ctx.shortVolFactor)
    (hprice : 0 ≤ (((ctx.states x).book.sides (takerSide ctx.dir)).head?.map Level.priceTicks).getD 0)
    (h : List.Forall₂ (· ≤ ·) fast slow) :
    Worsened eng eng (ctx.measured x fast) (ctx.measured x slow) x ∧
    eng.calculateMakerPlacement (ctx.measured x slow) = eng.calculateMakerPlacement (ctx.measured x fast) :=
  ⟨slower_worsened hmono hpos hvol hprice h, makerPlacement_measured eng ctx x fast slow⟩

end Slower

/-- Two venues ten ticks in a million apart. -/
def Sample.closeVenues : RoutingContext :=
  { twoVenues with
    states := fun ex => if ex = 0 then askVenue 0 [⟨1000000, 5⟩] else askVenue 1 [⟨1000010, 5⟩]
    targetLots := 4
    limitPrice := 0 }

/-- One sample of nine milliseconds costs the nearer venue its order. -/
theorem slower_worsens_takers_closeVenues :
    ([[0], [9000]].map fun samples => (Sample.freeEngine.calculateOptimalSplit
      (Sample.closeVenues.measured 0 samples)).2.map ChildOrder.exchangeId) = [[0], [1]] ∧
    Worsened Sample.freeEngine Sample.freeEngine (Sample.closeVenues.measured 0 [0])
      (Sample.closeVenues.measured 0 [9000]) 0 :=
  ⟨by decide +kernel, (slower_worsens_takers Sample.freeEngine Sample.closeVenues 0 [0] [9000]
    (fun _ _ _ => le_rfl) (fun _ => zero_le_one) le_rfl (by decide +kernel)
    (.cons (by norm_num) .nil)).1⟩

end OmsFormal.Sor
