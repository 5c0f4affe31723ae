import OmsFormal.SplitSoundness

/-!
# Child orders and the size limits of their venues

The limits are checked in native lots by the merge and in canonical lots by the
sweep, each after rounding to the nearest lot, so a child keeps the limits of its
venue and the displayed quantity up to half a canonical lot. The bounds are exact
where the units are whole multiples of the canonical lot.
-/

namespace OmsFormal.Sor
open Rounding MinimumSweep
set_option autoImplicit false

/-- The child keeps the limits of its venue and what its level displays, up to `slack`. -/
structure ChildOrder.WithinLimits (ctx : RoutingContext) (slack : ℚ) (co : ChildOrder) : Prop where
  minQty : (ctx.states co.exchangeId).lot.minQty - slack ≤ co.qty
  maxQty : co.qty ≤ (ctx.states co.exchangeId).lot.maxQty + slack
  displayed : ∀ lv, ((ctx.states co.exchangeId).book.sides (takerSide ctx.dir))[co.levelIdx]? = some lv →
    co.qty ≤ lv.qtyLots * (ctx.states co.exchangeId).book.lotSize + slack

variable {eng : RoutingEngine} {ctx : RoutingContext}

section FillRate

/-- The estimate is a rate for every volatility from zero on, every imbalance in [-1, 1] and every
round trip time, as long as `exp` stays in [0, 1] on non-positive arguments. -/
theorem fillRate_le_one (hexp : ∀ x ≤ 0, 0 ≤ eng.exp x ∧ eng.exp x ≤ 1) (hvol : 0 ≤ ctx.shortVolFactor)
    (himb : |ctx.bookImbalance| ≤ 1) {state : ExchangeState} (hrtt : 0 ≤ state.latency.ewmaRttUs) :
    (eng.openCursor ctx state).fillRate ≤ 1 := by
  change eng.estimateFillRate _ _ _ ≤ 1
  unfold RoutingEngine.estimateFillRate
  have himb' : directionalImbalance ctx.dir ctx.bookImbalance ≤ 1 := by
    obtain ⟨hlow, hhigh⟩ := abs_le.mp himb
    unfold directionalImbalance
    cases ctx.dir with
    | buy => simp only; split <;> linarith
    | sell => simp only; split <;> linarith
  have hpos : 0 ≤ (if directionalImbalance ctx.dir ctx.bookImbalance > 0
      then directionalImbalance ctx.dir ctx.bookImbalance else 0) ∧
      (if directionalImbalance ctx.dir ctx.bookImbalance > 0
      then directionalImbalance ctx.dir ctx.bookImbalance else 0) ≤ 1 := by
    split
    · rename_i h
      exact ⟨le_of_lt h, himb'⟩
    · exact ⟨le_rfl, zero_le_one⟩
  obtain ⟨hlat, hlat'⟩ := hexp (-kLatDecay * state.latency.ewmaRttUs) (by
    have : (0 : ℚ) ≤ kLatDecay := by norm_num [kLatDecay]
    nlinarith)
  have hvol' : 1 - kVolFillPenalty * ctx.shortVolFactor ≤ 1 := by
    have : (0 : ℚ) ≤ kVolFillPenalty := by norm_num [kVolFillPenalty]
    nlinarith
  simp only
  generalize (if directionalImbalance ctx.dir ctx.bookImbalance > 0
    then directionalImbalance ctx.dir ctx.bookImbalance else 0) = imbPos at hpos ⊢
  have himbFactor : 0 ≤ 1 - kImbFillPenalty * imbPos ∧ 1 - kImbFillPenalty * imbPos ≤ 1 := by
    have hk : kImbFillPenalty = 8 / 100 := rfl
    rw [hk]
    constructor <;> linarith [hpos.1, hpos.2]
  split
  · calc eng.exp (-kLatDecay * state.latency.ewmaRttUs) * (1 - kVolFillPenalty * ctx.shortVolFactor) *
          (1 - kImbFillPenalty * imbPos)
        ≤ 1 * (1 - kImbFillPenalty * imbPos) :=
          mul_le_mul_of_nonneg_right ((mul_le_of_le_one_right hlat hvol').trans hlat') himbFactor.1
      _ ≤ 1 := by linarith [himbFactor.2]
  · norm_num [kMinFillRate]

end FillRate

section Bounds

/-- The native lots behind a slice: at most what is displayed and what the venue takes. -/
theorem CostSlice.Offer.native_lots {ex : ℕ} {lv : Level} {sl : CostSlice} (h : sl.Offer eng ctx ex lv)
    (hs : ctx.Sized) (hrate : (eng.openCursor ctx (ctx.states ex)).fillRate ≤ 1) :
    ∃ adj : ℤ, sl.availableLots =
        roundHalfAway (adj * ((ctx.states ex).book.lotSize / resolveReferenceLotSize ctx)) ∧
      (adj : ℚ) * (ctx.states ex).book.lotSize ≤ lv.qtyLots * (ctx.states ex).book.lotSize ∧
      (adj : ℚ) * (ctx.states ex).book.lotSize ≤ (ctx.states ex).lot.maxQty := by
  have hlot := hs.native ex h.live.1
  have hclamped := h.clamped_nonneg hs
  generalize hclamp : (if lv.qtyLots < (eng.openCursor ctx (ctx.states ex)).maxLots then lv.qtyLots
    else (eng.openCursor ctx (ctx.states ex)).maxLots) = clamped at hclamped
  have hfill : 0 ≤ (eng.openCursor ctx (ctx.states ex)).fillRate :=
    le_trans (by norm_num) (half_le_fillRate eng ctx _)
  have hnn : (0 : ℚ) ≤ clamped := by exact_mod_cast hclamped
  have hadj : ((truncate (clamped * (eng.openCursor ctx (ctx.states ex)).fillRate) : ℤ) : ℚ) ≤ clamped :=
    (truncate_le (mul_nonneg hnn hfill)).trans (mul_le_of_le_one_right hnn hrate)
  have hqty : (clamped : ℚ) ≤ lv.qtyLots := by
    have : clamped ≤ lv.qtyLots := by
      rw [← hclamp]
      split <;> omega
    exact_mod_cast this
  have hmax : (clamped : ℚ) ≤ (ctx.states ex).lot.maxQty / (ctx.states ex).book.lotSize := by
    have hle : clamped ≤ truncate ((ctx.states ex).lot.maxQty / (ctx.states ex).book.lotSize) := by
      change clamped ≤ (eng.openCursor ctx (ctx.states ex)).maxLots
      rw [← hclamp]
      split <;> omega
    exact le_trans (by exact_mod_cast hle) (truncate_le (div_nonneg (hs.maxQty ex h.live.1) hlot.le))
  refine ⟨truncate (clamped * (eng.openCursor ctx (ctx.states ex)).fillRate), ?_, ?_, ?_⟩
  · rw [h.slice, ← hclamp]
    rfl
  · exact mul_le_mul_of_nonneg_right (hadj.trans hqty) hlot.le
  · exact (le_div_iff₀ hlot).mp (hadj.trans hmax)

/-- Half a canonical lot is all that rounding to canonical lots can add or take away. -/
theorem roundHalfAway_mul_near {ref : ℚ} (hr : 0 < ref) (q : ℚ) :
    q - ref / 2 ≤ roundHalfAway (q / ref) * ref ∧ roundHalfAway (q / ref) * ref ≤ q + ref / 2 := by
  obtain ⟨hlow, hhigh⟩ := roundHalfAway_near (q / ref)
  have hback : q / ref * ref = q := div_mul_cancel₀ q hr.ne'
  constructor
  · calc q - ref / 2 = (q / ref - 1 / 2) * ref := by rw [sub_mul, hback]; ring
      _ ≤ _ := mul_le_mul_of_nonneg_right hlow hr.le
  · calc _ ≤ (q / ref + 1 / 2) * ref := mul_le_mul_of_nonneg_right hhigh hr.le
      _ = q + ref / 2 := by rw [add_mul, hback]; ring

/-- The child of a slice, between the minimum of the sweep and what the slice holds. -/
theorem CostSlice.Offer.withinLimits {ex : ℕ} {lv : Level} {sl : CostSlice} (h : sl.Offer eng ctx ex lv)
    (hs : ctx.Sized) (hid : sl.exchangeId = ex)
    (hrate : (eng.openCursor ctx (ctx.states ex)).fillRate ≤ 1) {n : ℤ}
    (hmin : sl.minLots ctx ≤ n) (hmax : n ≤ sl.availableLots) :
    (sl.child ctx n).WithinLimits ctx (resolveReferenceLotSize ctx / 2) ∧
    (∀ k : ℤ, (ctx.states ex).lot.minQty = k * resolveReferenceLotSize ctx →
      (ctx.states ex).lot.minQty ≤ (sl.child ctx n).qty) ∧
    (∀ k : ℤ, (ctx.states ex).book.lotSize = k * resolveReferenceLotSize ctx →
      (sl.child ctx n).qty ≤ (ctx.states ex).lot.maxQty ∧
      (sl.child ctx n).qty ≤ lv.qtyLots * (ctx.states ex).book.lotSize) := by
  have hr := hs.reference
  have hqty : (sl.child ctx n).qty = n * resolveReferenceLotSize ctx := rfl
  obtain ⟨adj, havail, hdisplayed, hmaxQty⟩ := h.native_lots hs hrate
  obtain ⟨hlow, -⟩ := roundHalfAway_mul_near hr (ctx.states ex).lot.minQty
  obtain ⟨-, hhigh⟩ := roundHalfAway_mul_near hr (adj * (ctx.states ex).book.lotSize)
  rw [mul_div_assoc, ← havail] at hhigh
  have hbelow : (sl.minLots ctx : ℚ) * resolveReferenceLotSize ctx ≤ n * resolveReferenceLotSize ctx :=
    mul_le_mul_of_nonneg_right (by exact_mod_cast hmin) hr.le
  have habove : (n : ℚ) * resolveReferenceLotSize ctx ≤ sl.availableLots * resolveReferenceLotSize ctx :=
    mul_le_mul_of_nonneg_right (by exact_mod_cast hmax) hr.le
  rw [CostSlice.minLots, hid] at hbelow
  have hvenue : (sl.child ctx n).exchangeId = ex := hid
  refine ⟨⟨?_, ?_, ?_⟩, fun k hk => ?_, fun k hk => ?_⟩
  · rw [hvenue, hqty]
    linarith
  · rw [hvenue, hqty]
    linarith
  · intro lv' hlv
    have hsame : lv' = lv := by
      rw [hvenue] at hlv
      exact Option.some.inj (hlv.symm.trans h.level)
    rw [hvenue, hqty, hsame]
    linarith
  · rw [hk, roundHalfAway_mul_div hr] at hbelow
    rw [hk, hqty]
    exact hbelow
  · -- whole multiples convert without rounding
    have hexact : (sl.availableLots : ℚ) * resolveReferenceLotSize ctx =
        adj * (ctx.states ex).book.lotSize := by
      rw [havail, hk, mul_div_cancel_right₀ _ hr.ne', ← Int.cast_mul, roundHalfAway_intCast,
        Int.cast_mul, mul_assoc]
    rw [hqty]
    exact ⟨by linarith, by linarith⟩

end Bounds

/-- The children of a split keep the limits of their venues and the displayed quantity up to half a
canonical lot, and exactly where the units are whole multiples of it; a maker order is for the whole
target. -/
theorem children_withinLimits (eng : RoutingEngine) (ctx : RoutingContext)
    (hr : 0 < resolveReferenceLotSize ctx)
    (hids : ∀ ex < ctx.activeExchanges, (ctx.states ex).exchangeId = ex)
    (hnative : ∀ ex < ctx.activeExchanges, 0 < (ctx.states ex).book.lotSize)
    (hlimits : ∀ ex < ctx.activeExchanges, (ctx.states ex).lot.minQty ≤ (ctx.states ex).lot.maxQty)
    (hrate : ∀ ex < ctx.activeExchanges, (eng.openCursor ctx (ctx.states ex)).fillRate ≤ 1)
    (htarget : 1 ≤ ctx.targetLots) :
    (∀ co ∈ (eng.calculateOptimalSplit ctx).2,
      co.WithinLimits ctx (resolveReferenceLotSize ctx / 2) ∧
      (∀ k : ℤ, (ctx.states co.exchangeId).lot.minQty = k * resolveReferenceLotSize ctx →
        (ctx.states co.exchangeId).lot.minQty ≤ co.qty) ∧
      (∀ k : ℤ, (ctx.states co.exchangeId).book.lotSize = k * resolveReferenceLotSize ctx →
        co.qty ≤ (ctx.states co.exchangeId).lot.maxQty ∧
        ∀ lv, ((ctx.states co.exchangeId).book.sides (takerSide ctx.dir))[co.levelIdx]? = some lv →
          co.qty ≤ lv.qtyLots * (ctx.states co.exchangeId).book.lotSize)) ∧
    ∀ co ∈ (eng.calculateMakerPlacement ctx).2, co.qty = ctx.targetLots * resolveReferenceLotSize ctx := by
  have hs : ctx.Sized := ⟨hr, hnative, fun ex hex => (ctx.states ex).lot.minQty_nonneg.trans (hlimits ex hex)⟩
  constructor
  · intro co hco
    rw [(calculateOptimalSplit_servings eng hr htarget).1] at hco
    obtain ⟨x, hx, hpos, rfl⟩ := mem_taken.mp hco
    obtain ⟨ex, lv, hoffer⟩ := buildCostSlices_offer x.1 (fst_mem_slices hx)
    have hid : x.1.exchangeId = ex := by
      rw [hoffer.slice]
      exact hids ex hoffer.live.1
    have havail := available_pos eng hs x.1 (fst_mem_slices hx)
    obtain ⟨hmin, hmax⟩ : x.1.minLots ctx ≤ x.2 ∧ x.2 ≤ x.1.availableLots := by
      obtain ⟨pre, post, hsplit⟩ := List.append_of_mem hx
      have hshare := share_of_split hsplit
      have hcap : x.1.capacity = max x.1.availableLots 0 := rfl
      rcases share_eq_zero_or CostSlice.capacity (CostSlice.minLots ctx) x.1
          (ctx.targetLots - served pre) with
        hzero | ⟨hfull, hlow⟩
      · omega
      · omega
    obtain ⟨hwithin, hexactMin, hexactMax⟩ := hoffer.withinLimits hs hid (hrate ex hoffer.live.1) hmin hmax
    have hvenue : (x.1.child ctx x.2).exchangeId = ex := hid
    refine ⟨hwithin, hvenue ▸ hexactMin, ?_⟩
    rw [hvenue]
    refine fun k hk => ⟨(hexactMax k hk).1, fun lv' hlv => ?_⟩
    rw [Option.some.inj (hlv.symm.trans hoffer.level)]
    exact (hexactMax k hk).2
  · intro co hco
    obtain ⟨hlots, -⟩ := makerPlacement_posted eng co hco
    exact hlots

namespace Sample

/-- One venue with a bid and an ask of `lots` native lots, traded in unit lots. -/
def oneVenue (dir : OrderDir) (lotSize : ℚ) (lot : LotConstraints) (lots target : ℤ) : RoutingContext where
  states ex :=
    { book := ⟨fun | .ask => [⟨100, lots⟩] | .bid => [⟨99, lots⟩], 1, lotSize, true⟩
      latency := ⟨0⟩
      lot := lot
      exchangeId := ex
      enabled := true }
  activeExchanges := 1
  dir := dir
  targetLots := target
  limitPrice := 0
  referenceLotSize := 1
  decisionNs := 1
  shortVolFactor := 0
  bookImbalance := 0

end Sample

/-- A venue with lots of two units. -/
theorem children_withinLimits_oneVenue :
    ((Sample.freeEngine.calculateOptimalSplit (Sample.oneVenue .buy 2 (.upTo 6) 5 9)).2.map
      ChildOrder.qty) = [6] ∧
    ∀ co ∈ (Sample.freeEngine.calculateOptimalSplit (Sample.oneVenue .buy 2 (.upTo 6) 5 9)).2,
      co.qty ≤ 6 + 1 / 2 := by
  refine ⟨by decide +kernel, fun co hco => ?_⟩
  have hall := children_withinLimits Sample.freeEngine (Sample.oneVenue .buy 2 (.upTo 6) 5 9)
    (by decide +kernel)
    (fun ex _ => rfl) (fun ex _ => by change (0 : ℚ) < 2; norm_num)
    (fun ex _ => by change (0 : ℚ) ≤ 6; norm_num)
    (fun ex _ => fillRate_le_one (fun x _ => by change (0 : ℚ) ≤ 1 ∧ (1 : ℚ) ≤ 1; norm_num) le_rfl
      (by change |(0 : ℚ)| ≤ 1; norm_num) le_rfl) (by decide)
  have hmax : co.qty ≤ 6 + 1 / 2 := (hall.1 co hco).1.maxQty
  exact hmax

/-- A displayed lot of 1.6 units, the venue's maximum, is bought as two units; one unit is bought where
the minimum is 1.4; nine units are posted where the maximum is six; and eleven units are bought where
ten are displayed and allowed, at a volatility of minus one. -/
theorem children_beyond_limits :
    (∃ co ∈ (Sample.freeEngine.calculateOptimalSplit (Sample.oneVenue .buy (8 / 5) (.upTo (8 / 5)) 1 9)).2,
      (8 / 5 : ℚ) < co.qty) ∧
    (∃ co ∈ (Sample.freeEngine.calculateOptimalSplit (Sample.oneVenue .buy 1 ⟨7 / 5, 6, by norm_num⟩ 1 1)).2,
      co.qty < (7 / 5 : ℚ)) ∧
    (∃ co ∈ (Sample.freeEngine.calculateMakerPlacement (Sample.oneVenue .buy 1 (.upTo 6) 5 9)).2,
      (6 : ℚ) < co.qty) ∧
    (∃ co ∈ (Sample.freeEngine.calculateOptimalSplit
        { Sample.oneVenue .buy 1 (.upTo 10) 10 20 with shortVolFactor := -1 }).2,
      (10 : ℚ) < co.qty) := by
  refine ⟨?_, ?_, ?_, ?_⟩ <;> decide +kernel

end OmsFormal.Sor
