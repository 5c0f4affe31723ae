import OmsFormal.AskedLots
import OmsFormal.ExecutionThread
import OmsFormal.Reconciliation
import OmsFormal.TwapScheduler

/-!
# A TWAP and the core it trades through

The strategy thread ticks a scheduler and pushes its slices to the queue of the core,
next to the signals of other strategies. Lots of the order that are not in the
scheduler any more wait in the queue, were dropped because it was full, were refused
by the core, or were asked for in the market; so the position moves by no more than
the order, and in its direction only.
-/

namespace OmsFormal.Algos
open Sor Oms GuardedRun
set_option autoImplicit false

/-- A scheduler, the queue to the core, and the core with its account. `dropped` and `refused` are
lots of slices the queue had no place for, and that the core did not ask the market for. -/
structure TwapDesk where
  twap : TwapRun
  queue : List StrategyOrderSignal
  account : LotAccount
  dropped : ℤ
  refused : ℤ

/-- What the strategy thread does, the core taking the next signal, and all else that reaches the
core. -/
inductive DeskAction where
  | tick (nowNs : UInt64) (draw : TwapDraw)
  | push (sig : StrategyOrderSignal)
  | handle (w : World)
  | other (e : Event)

namespace TwapDesk

def start (order : TwapConfig) (s : Core) : TwapDesk where
  twap := TwapRun.init order
  queue := []
  account := LotAccount.start s
  dropped := 0
  refused := 0

/-- Lots of a signal that are on the side of the order. -/
def sideLots (order : TwapConfig) (sig : StrategyOrderSignal) : ℤ :=
  onSide sig.instrId sig.dir order.instrId order.dir sig.qtyLots

/-- The queue takes a signal if it has a place. -/
def push (order : TwapConfig) (sig : StrategyOrderSignal) (x : TwapDesk) : TwapDesk :=
  if x.queue.length < kInboundQueueSize - 1 then { x with queue := x.queue ++ [sig] }
  else { x with dropped := x.dropped + sideLots order sig }

def tick (order : TwapConfig) (nowNs : UInt64) (draw : TwapDraw) (x : TwapDesk) : TwapDesk :=
  let x' := { x with twap := TwapRun.step (.tick nowNs draw) x.twap }
  match (x.twap.scheduler.tick nowNs draw).1 with
  | none => x'
  | some sig => push order sig x'

def handle (cfg : ExecCoreConfig) (r : ℕ → ℕ → ℕ) (order : TwapConfig) (w : World) (x : TwapDesk) :
    TwapDesk :=
  match x.queue with
  | [] => x
  | sig :: rest =>
    { x with
      queue := rest
      account := LotAccount.step cfg r (.call w (.signal sig)) x.account
      refused := x.refused + (sideLots order sig -
        (Call.signal sig).askedLots cfg w x.account.booked.1 order.instrId order.dir) }

def step (cfg : ExecCoreConfig) (r : ℕ → ℕ → ℕ) (order : TwapConfig) : DeskAction → TwapDesk → TwapDesk
  | .tick nowNs draw, x => x.tick order nowNs draw
  | .push sig, x => x.push order sig
  | .handle w, x => x.handle cfg r order w
  | .other e, x => { x with account := LotAccount.step cfg r e x.account }

/-- The other signals are for other instruments, and what reaches the core is admissible. -/
def Proper (cfg : ExecCoreConfig) (r : ℕ → ℕ → ℕ) (order : TwapConfig) : DeskAction → TwapDesk → Prop
  | .tick _ _, _ => True
  | .push sig, _ => 1 ≤ sig.qtyLots ∧ sig.instrId ≠ order.instrId
  | .handle w, x => w.router.Sound ∧
      ∀ sig ∈ x.queue.head?, (Call.signal sig).Scaled cfg r w x.account.booked.1
  | .other e, x => e.Admissible cfg r x.account.booked.1 ∧ ∀ w sig, e ≠ .call w (.signal sig)

/-- Lots of the order that wait in the queue. -/
def queuedLots (order : TwapConfig) (x : TwapDesk) : ℤ := (x.queue.map (sideLots order)).sum

/-- Every lot of the order is in one place, and the market is asked for nothing on the other side. -/
structure Ok (r : ℕ → ℕ → ℕ) (order : TwapConfig) (net0 : ℕ → ℤ) (x : TwapDesk) : Prop where
  course : x.twap.OnCourse order
  setup : x.twap.scheduler.cfg = order
  account : x.account.Ok r net0
  queued : ∀ sig ∈ x.queue, 1 ≤ sig.qtyLots ∧ (sig.instrId = order.instrId → sig.dir = order.dir)
  lots : x.twap.scheduler.remainingLots + x.queuedLots order + x.dropped + x.refused +
    x.account.asked order.instrId order.dir = order.totalQtyLots
  dropped : 0 ≤ x.dropped
  refused : 0 ≤ x.refused
  oneSided : ∀ d, d ≠ order.dir → x.account.asked order.instrId d = 0

variable {cfg : ExecCoreConfig} {r : ℕ → ℕ → ℕ} {order : TwapConfig} {net0 : ℕ → ℤ} {x : TwapDesk}
variable {sig : StrategyOrderSignal} {w : World} {s : Core}

theorem start_ok (h : 1 ≤ order.totalQtyLots) (h0 : Fresh s) :
    (start order s).Ok r order fun i => (s.pos.instruments i).netQtyLots := by
  refine ⟨TwapRun.init_onCourse h, rfl, LotAccount.start_ok h0, fun sig hsig => (by cases hsig), ?_, le_rfl,
    le_rfl, fun _ _ => rfl⟩
  simp [start, queuedLots, LotAccount.start, TwapRun.init, TwapScheduler.init]

theorem sideLots_nonneg (order : TwapConfig) (h : 1 ≤ sig.qtyLots) : 0 ≤ sideLots order sig :=
  onSide_nonneg _ _ (by omega)

theorem queuedLots_nonneg (h : x.Ok r order net0) : 0 ≤ x.queuedLots order := by
  apply List.sum_nonneg
  intro n hn
  obtain ⟨sig, hsig, rfl⟩ := List.mem_map.mp hn
  exact sideLots_nonneg order (h.queued sig hsig).1

/-- A signal on its way to the core: its lots join those that wait, or those that were dropped. -/
theorem push_lots (order : TwapConfig) (sig : StrategyOrderSignal) (x : TwapDesk) :
    (x.push order sig).queuedLots order + (x.push order sig).dropped =
      x.queuedLots order + x.dropped + sideLots order sig := by
  unfold push
  split
  · simp only [queuedLots, List.map_append, List.sum_append, List.map_cons, List.map_nil, List.sum_cons,
      List.sum_nil]
    omega
  · simp only [queuedLots]
    omega

theorem push_queued
    (h : ∀ sig ∈ x.queue, 1 ≤ sig.qtyLots ∧ (sig.instrId = order.instrId → sig.dir = order.dir))
    (hpos : 1 ≤ sig.qtyLots) (hside : sig.instrId = order.instrId → sig.dir = order.dir) :
    ∀ sig' ∈ (x.push order sig).queue,
      1 ≤ sig'.qtyLots ∧ (sig'.instrId = order.instrId → sig'.dir = order.dir) := by
  unfold push
  split
  · intro sig' hsig'
    rcases List.mem_append.mp hsig' with hold | hnew
    · exact h sig' hold
    · rw [List.mem_singleton.mp hnew]
      exact ⟨hpos, hside⟩
  · exact h

theorem push_same (order : TwapConfig) (sig : StrategyOrderSignal) (x : TwapDesk) :
    (x.push order sig).twap = x.twap ∧ (x.push order sig).account = x.account ∧
      (x.push order sig).refused = x.refused := by
  unfold push
  split
  · exact ⟨rfl, rfl, rfl⟩
  · exact ⟨rfl, rfl, rfl⟩

theorem push_dropped (hpos : 1 ≤ sig.qtyLots) : x.dropped ≤ (x.push order sig).dropped := by
  unfold push
  split
  · exact le_rfl
  · have hnonneg := sideLots_nonneg order hpos
    exact le_add_of_nonneg_right hnonneg

/-- What a tick does: nothing, or it takes a slice from what is left. -/
theorem tick_cases (nowNs : UInt64) (draw : TwapDraw) (s : TwapScheduler) :
    s.tick nowNs draw = (none, s) ∨ s.done = false ∧ ∃ sig s', s.tick nowNs draw = (some sig, s') ∧
      sig.instrId = s.cfg.instrId ∧ sig.dir = s.cfg.dir ∧ sig.qtyLots = s.sliceLots draw ∧
      s'.remainingLots = s.remainingLots - s.sliceLots draw ∧ s'.cfg = s.cfg := by
  rw [TwapScheduler.tick]
  split
  · exact Or.inl rfl
  · rename_i hdue
    refine Or.inr ⟨Bool.eq_false_iff.mpr (not_or.mp hdue).1, _, _, rfl, rfl, rfl, rfl, ?_, ?_⟩
    · rw [TwapScheduler.scheduleNext]
      split <;> rfl
    · rw [TwapScheduler.scheduleNext]
      split <;> rfl

theorem tick_ok (h : x.Ok r order net0) (nowNs : UInt64) (draw : TwapDraw) :
    (x.tick order nowNs draw).Ok r order net0 := by
  have hcourse := TwapRun.step_onCourse h.course (.tick nowNs draw)
  rcases tick_cases nowNs draw x.twap.scheduler with
    hidle | ⟨hdone, sig, s', htick, hinstr, hdir, hqty, hleft, hcfg⟩
  · have hsame : x.tick order nowNs draw = x := by
      simp [tick, hidle, TwapRun.step]
    rw [hsame]
    exact h
  · have hslices := mt (TwapRun.done_iff_slicesRemaining h.course).mpr
      (by rw [hdone]; exact Bool.false_ne_true)
    have hpos := (TwapRun.sliceLots_mem h.course hslices draw).1
    rw [← hqty] at hpos
    rw [h.setup] at hinstr hdir
    have hside : sideLots order sig = sig.qtyLots := by
      rw [sideLots, hinstr, hdir, onSide_self]
    have hpush : x.tick order nowNs draw =
        push order sig { x with twap := TwapRun.step (.tick nowNs draw) x.twap } := by
      simp [tick, htick]
    have hscheduler : (TwapRun.step (.tick nowNs draw) x.twap).scheduler = s' := by
      simp [TwapRun.step, htick]
    have hlots := push_lots order sig { x with twap := TwapRun.step (.tick nowNs draw) x.twap }
    obtain ⟨htwap, haccount, hrefused⟩ := push_same order sig
      { x with twap := TwapRun.step (.tick nowNs draw) x.twap }
    rw [← hpush] at hlots htwap haccount hrefused
    refine ⟨?_, ?_, ?_, ?_, ?_, ?_, ?_, ?_⟩
    · rw [htwap]
      exact hcourse
    · rw [htwap, hscheduler, hcfg]
      exact h.setup
    · rw [haccount]
      exact h.account
    · rw [hpush]
      exact push_queued h.queued hpos fun _ => hdir
    · have hold := h.lots
      rw [htwap, haccount, hrefused, hscheduler, hleft]
      simp only [queuedLots] at hlots hold ⊢
      omega
    · rw [hpush]
      exact h.dropped.trans (push_dropped hpos)
    · rw [hrefused]
      exact h.refused
    · rw [haccount]
      exact h.oneSided

theorem askedLots_otherSide {i : ℕ} {d : OrderDir} (h : ¬ (sig.instrId = i ∧ sig.dir = d)) :
    (Call.signal sig).askedLots cfg w s i d = 0 := by
  simp only [Call.askedLots]
  split
  · rfl
  · exact if_neg h

theorem handle_ok (h : x.Ok r order net0) (hsound : w.router.Sound)
    (hscaled : ∀ sig ∈ x.queue.head?, (Call.signal sig).Scaled cfg r w x.account.booked.1) :
    (x.handle cfg r order w).Ok r order net0 := by
  cases hqueue : x.queue with
  | nil =>
    simp only [handle, hqueue]
    exact h
  | cons sig rest =>
    have hhead := h.queued sig (by rw [hqueue]; exact List.mem_cons_self)
    have hasked : (Call.signal sig).askedLots cfg w x.account.booked.1 order.instrId order.dir ≤
        sideLots order sig := askedLots_le hhead.1
    have hadm : (Event.call w (.signal sig)).Admissible cfg r x.account.booked.1 :=
      ⟨hhead.1, hscaled sig (by rw [hqueue]; rfl), hsound⟩
    have hold := h.lots
    simp only [queuedLots, hqueue, List.map_cons, List.sum_cons] at hold
    simp only [handle, hqueue]
    refine ⟨h.course, h.setup, LotAccount.step_ok h.account hadm, fun sig' hsig' => ?_, ?_, h.dropped, ?_,
      fun d hd => ?_⟩
    · exact h.queued sig' (by rw [hqueue]; exact List.mem_cons_of_mem sig hsig')
    · simp only [queuedLots, LotAccount.step]
      omega
    · exact add_nonneg h.refused (sub_nonneg.mpr hasked)
    · have hnone : (Call.signal sig).askedLots cfg w x.account.booked.1 order.instrId d = 0 :=
        askedLots_otherSide fun hside => hd (hside.2.symm.trans (hhead.2 hside.1))
      have hzero := h.oneSided d hd
      simp only [LotAccount.step]
      omega

theorem other_ok {e : Event} (h : x.Ok r order net0) (hadm : e.Admissible cfg r x.account.booked.1)
    (hother : ∀ w sig, e ≠ .call w (.signal sig)) :
    ({ x with account := LotAccount.step cfg r e x.account } : TwapDesk).Ok r order net0 := by
  have hasked : (LotAccount.step cfg r e x.account).asked = x.account.asked := by
    cases e with
    | env e => rfl
    | call w c =>
      cases c with
      | signal sig => exact absurd rfl (hother w sig)
      | report rep => funext i d; exact add_zero _
      | visit slot idx => funext i d; exact add_zero _
  refine ⟨h.course, h.setup, LotAccount.step_ok h.account hadm, h.queued, ?_, h.dropped, h.refused,
    fun d hd => ?_⟩
  · simp only [hasked]
    exact h.lots
  · simp only [hasked]
    exact h.oneSided d hd

theorem step_ok {a : DeskAction} (h : x.Ok r order net0) (ha : Proper cfg r order a x) :
    (step cfg r order a x).Ok r order net0 := by
  cases a with
  | tick nowNs draw => exact tick_ok h nowNs draw
  | push sig =>
    obtain ⟨htwap, haccount, hrefused⟩ := push_same order sig x
    have hlots := push_lots order sig x
    have hstranger : sideLots order sig = 0 := if_neg fun hside => ha.2 hside.1
    have hold := h.lots
    refine ⟨?_, ?_, ?_, push_queued h.queued ha.1 fun heq => absurd heq ha.2, ?_, ?_, ?_, ?_⟩
    · rw [step, htwap]
      exact h.course
    · rw [step, htwap]
      exact h.setup
    · rw [step, haccount]
      exact h.account
    · rw [step, htwap, haccount, hrefused]
      omega
    · exact h.dropped.trans (push_dropped ha.1)
    · rw [step, hrefused]
      exact h.refused
    · rw [step, haccount]
      exact h.oneSided
  | handle w => exact handle_ok h ha.1 ha.2
  | other e => exact other_ok h ha.1 ha.2

/-- Five lots in two slices: the first has filled, the second waits in the queue. -/
def Sample.fiveLots : TwapConfig := ⟨0, .buy, 0, 5, 2, 0, false, .taker⟩

def Sample.deskActs : List DeskAction :=
  [.tick 0 ⟨2, 10⟩, .handle (Oms.Sample.world 9),
   .other (.call (Oms.Sample.world 9) (.report (Oms.Sample.report 0 .fill 2))), .tick 10 ⟨0, 10⟩]

end TwapDesk

end OmsFormal.Algos
