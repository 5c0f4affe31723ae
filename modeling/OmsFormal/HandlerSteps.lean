import OmsFormal.HandlerRules
import Mathlib.Logic.Relation

/-!
# Handlers as sequences of small steps

A top-level call books its own effect and then runs through a few phases: close
the parent, keep waiting, or clear its children, re-clamp it, ask the router and
send. `Micro` lists these steps once, with their guards. An invariant with one
reading per phase is checked against the list and then holds of every call.
-/

namespace OmsFormal.Oms
open Sor Rounding OMSOrderPool
set_option autoImplicit false

/-- Where the execution thread stands inside a call. -/
inductive Phase where
  | idle
  | booked (pid : ℕ)
  | trimmed (pid : ℕ) (ctx : RoutingContext)
  | sending (pid : ℕ) (ctx : RoutingContext) (rest : List ChildOrder)

section Relation
variable (cfg : ExecCoreConfig) (w : World)

inductive Micro : Phase × Core → Phase × Core → Prop
  | mark {pid : ℕ} {s : Core} :
      Micro (.booked pid, s) (.booked pid, s.setParentState pid .partiallyFilled)
  | close {pid : ℕ} {s : Core} (h : (s.pool.parents pid).leavesQtyLots ≤ 0) :
      Micro (.booked pid, s) (.idle, closeFilled pid s)
  | keep {pid : ℕ} {s : Core} (h : allChildrenTerminal s.pool (s.pool.parents pid) = false) :
      Micro (.booked pid, s) (.idle, s)
  | trim {pid : ℕ} {s : Core} (hleft : (s.pool.parents pid).leavesQtyLots ≠ 0)
      (h : allChildrenTerminal s.pool (s.pool.parents pid) = true) :
      Micro (.booked pid, s) (.trimmed pid (trimmedContext cfg w pid s), trimmed pid s)
  | reduced {pid : ℕ} {ctx : RoutingContext} {s : Core}
      (hflag : (s.pool.parents pid).reduceOnly = true)
      (h : (s.pool.parents pid).leavesQtyLots = 0) :
      Micro (.trimmed pid ctx, s) (.idle, closeReduceOnlyDone pid s)
  | noLiquidity {pid : ℕ} {ctx : RoutingContext} {s : Core} (h : w.router.optimalSplit ctx = []) :
      Micro (.trimmed pid ctx, s) (.idle, closeUnfilled w pid .noLiquidity s)
  | route {pid : ℕ} {ctx : RoutingContext} {s : Core}
      (hleft : (s.pool.parents pid).reduceOnly = true → (s.pool.parents pid).leavesQtyLots ≠ 0)
      (h : w.router.optimalSplit ctx ≠ []) :
      Micro (.trimmed pid ctx, s)
        (.sending pid ctx (w.router.optimalSplit ctx), s.setParentState pid .pendingNew)
  | send {pid cid : ℕ} {ctx : RoutingContext} {co : ChildOrder} {rest : List ChildOrder}
      {free : List ℕ} {s : Core}
      (hroom : (s.pool.parents pid).childCount < ParentOrder.kMaxChildrenPerParent)
      (hfree : s.pool.childFree = cid :: free) :
      Micro (.sending pid ctx (co :: rest), s)
        (.sending pid ctx rest, sendChild cfg w pid ctx cid free co s)
  | allocFailed {pid : ℕ} {ctx : RoutingContext} {rest : List ChildOrder} {s : Core}
      (h : s.pool.childFree = []) :
      Micro (.sending pid ctx rest, s) (.sending pid ctx rest, { s with pool := s.pool.allocChild.2 })
  | sent {pid : ℕ} {ctx : RoutingContext} {rest : List ChildOrder} {s : Core}
      (h : (s.pool.parents pid).childCount ≠ 0) :
      Micro (.sending pid ctx rest, s) (.idle, releaseGap pid ctx rest s)
  | noneSent {pid : ℕ} {ctx : RoutingContext} {rest : List ChildOrder} {s : Core}
      (h : (s.pool.parents pid).childCount = 0) :
      Micro (.sending pid ctx rest, s)
        (.idle, closeUnfilled w pid .childPoolExhausted (releaseGap pid ctx rest s))

def Steps : Phase × Core → Phase × Core → Prop := Relation.ReflTransGen (Micro cfg w)

end Relation

variable {cfg : ExecCoreConfig} {w : World} {pid : ℕ} {start : Phase × Core}

theorem Steps.invariant {J : Phase × Core → Prop}
    (hstep : ∀ a b, Micro cfg w a b → J a → J b) {a b : Phase × Core} (h : Steps cfg w a b)
    (ha : J a) : J b := by
  induction h with
  | refl => exact ha
  | tail _ hmicro ih => exact hstep _ _ hmicro ih

theorem Micro.not_idle {a b : Phase × Core} (h : Micro cfg w a b) : a.1 ≠ .idle := by
  cases h <;> exact Phase.noConfusion

theorem Steps.of_idle {s : Core} {b : Phase × Core} (h : Steps cfg w (.idle, s) b) : b = (.idle, s) := by
  rcases Relation.ReflTransGen.cases_head h with heq | ⟨c, hmicro, _⟩
  · exact heq.symm
  · exact absurd rfl hmicro.not_idle

section Decomposition

theorem dispatchChildOrders_steps {ctx : RoutingContext} {buf : List ChildOrder} {s : Core}
    (h0 : (s.pool.parents pid).childCount = 0)
    (h : Steps cfg w start (.sending pid ctx buf, s)) :
    Steps cfg w start (.idle, dispatchChildOrders cfg w pid buf ctx s) := by
  apply dispatchChildOrders_rule (fun rest s => Steps cfg w start (.sending pid ctx rest, s))
    (fun s => Steps cfg w start (.idle, s)) _ _ _ h0 h
  · intro co rest s cid free hs hroom hfree
    exact hs.tail (.send hroom hfree)
  · intro co rest s hs hfree
    exact hs.tail (.allocFailed hfree)
  · intro rest s hs
    unfold finishDispatch
    simp only [releaseGap_pool]
    split
    · rename_i hcount
      exact hs.tail (.noneSent hcount)
    · rename_i hcount
      exact hs.tail (.sent hcount)

/-- A flow that got to its dispatch by small steps ends by small steps. -/
theorem Flow.Sat.steps {flow : Flow}
    (h : flow.Sat pid (fun s => Steps cfg w start (.idle, s))
      fun s buf ctx => (s.pool.parents pid).childCount = 0 ∧
        Steps cfg w start (.sending pid ctx buf, s)) :
    Steps cfg w start (.idle, flow.run cfg w) :=
  h.run fun _ _ _ hr => dispatchChildOrders_steps hr.1 hr.2

theorem trimmed_childCount (s : Core) : ((trimmed pid s).pool.parents pid).childCount = 0 := by
  rw [trimmed_record]
  rfl

theorem trimmed_reduceOnly (s : Core) :
    ((trimmed pid s).pool.parents pid).reduceOnly = (s.pool.parents pid).reduceOnly := by
  rw [trimmed_record]
  rfl

theorem rerouteLeaves_steps {s : Core} (hleft : (s.pool.parents pid).leavesQtyLots ≠ 0)
    (hall : allChildrenTerminal s.pool (s.pool.parents pid) = true)
    (h : Steps cfg w start (.booked pid, s)) :
    (rerouteLeaves cfg w pid s).Sat pid (fun s => Steps cfg w start (.idle, s))
      fun s buf ctx => (s.pool.parents pid).childCount = 0 ∧
        Steps cfg w start (.sending pid ctx buf, s) := by
  have htrim := h.tail (.trim hleft hall)
  apply rerouteLeaves_sat
  · intro hflag hl
    exact htrim.tail (.reduced (by rw [trimmed_reduceOnly]; exact hflag) hl)
  · intro hnone
    exact htrim.tail (.noLiquidity hnone)
  · intro hl hsplit
    refine ⟨by simp [Core.setParentState, trimmed_childCount], htrim.tail (.route ?_ hsplit)⟩
    rw [trimmed_reduceOnly]
    exact hl

theorem handleFill_steps {cid : ℕ} {rep : ExecutionReport} {s : Core} :
    Steps cfg w (.booked pid, bookFill cfg w cid pid rep s)
      (.idle, (handleFill cfg w cid pid rep s).run cfg w) := by
  have hstart : Steps cfg w (.booked pid, bookFill cfg w cid pid rep s) _ := .refl
  apply Flow.Sat.steps
  apply handleFill_sat
  · intro hl
    exact hstart.tail (.close hl.le)
  · rintro s1 rfl hl
    have hmark := hstart.tail .mark
    refine ⟨fun hkeep => hmark.tail (.keep hkeep), fun hall => ?_⟩
    refine rerouteLeaves_steps ?_ hall hmark
    simpa [Core.setParentState] using hl

theorem handleCancelReject_steps {cid : ℕ} {rep : ExecutionReport} {s : Core} :
    Steps cfg w (.booked pid, bookCancel cfg w cid pid rep s)
      (.idle, (handleCancelReject cfg w cid pid rep s).run cfg w) := by
  have hstart : Steps cfg w (.booked pid, bookCancel cfg w cid pid rep s) _ := .refl
  apply Flow.Sat.steps
  apply handleCancelReject_sat
  · intro hl
    exact hstart.tail (.close hl)
  · rintro s1 rfl hl
    exact ⟨fun hkeep => hstart.tail (.keep hkeep),
      fun hall => rerouteLeaves_steps (by omega) hall hstart⟩

end Decomposition

end OmsFormal.Oms
