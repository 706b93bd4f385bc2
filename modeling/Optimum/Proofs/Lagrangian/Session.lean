import Mathlib.Data.List.DropRight
import Optimum.Proofs.Lagrangian.Faults
import Optimum.Proofs.Scalar.Order

/-!
# Sessions with a Lagrangian

An augmented Lagrangian is built once, from multipliers and a penalty parameter. From then on it can
be evaluated, its kept failure can be taken, and its multipliers can be looked up, in any order; and
the multipliers that it was built from can be given other values. A `Session` is the state in which
this happens: the Lagrangian has a copy of the multipliers and the failure that it keeps, and the
callbacks have their own state. Each `Use` gives an `Event`, with the calls that were made for it.

The failure kept is that of the first evaluation since a failure was last taken at which residuals
were not as they should be. It has no influence on values.

## What is proved

* `Event.Follows` says what may come of a use, after what has been before.
* `Session.Keeps.perform` is the step lemma: what is known of a session is known after each use.
* `Session.keepsFirst_of_run`: all events of a session are as they should be.
-/

namespace Optimum

open Scalar

variable {α σ : Type}

/-! ### Uses and events -/

/-- What can be done once a Lagrangian has been built. -/
inductive Use (α : Type) where
  /-- It is evaluated at a point. -/
  | evaluate (x : Vec α)
  /-- Its kept failure is taken. -/
  | take
  /-- Its multipliers are looked up. -/
  | lookUp
  /-- The multipliers that it was built from are given other values. -/
  | reassign (lam : Multipliers α)

/-- A use and what came of it. -/
inductive Event (α : Type) where
  /-- The value at a point, and the calls made for it. -/
  | evaluated (x : Vec α) (calls : Transcript α) (v : α)
  /-- The failure that was kept. -/
  | taken (kept : Kept α)
  /-- The multipliers. -/
  | lookedUp (lam : Multipliers α)
  /-- The new values. -/
  | reassigned (lam : Multipliers α)

namespace Event

/-- The use that the event came of. -/
def use : Event α → Use α
  | evaluated x _ _ => .evaluate x
  | taken _ => .take
  | lookedUp _ => .lookUp
  | reassigned lam => .reassign lam

/-- The calls made. -/
def calls : Event α → Transcript α
  | evaluated _ calls _ => calls
  | _ => []

/-- A failure was taken, or there was none to take. -/
def isTaken : Event α → Bool
  | taken _ => true
  | _ => false

/-- The calls made since a failure was last taken. -/
def callsSinceTaken (past : List (Event α)) : Transcript α :=
  (past.rtakeWhile fun e => !e.isTaken).flatMap calls

theorem callsSinceTaken_concat (past : List (Event α)) (e : Event α) :
    callsSinceTaken (past ++ [e]) = if e.isTaken then [] else callsSinceTaken past ++ e.calls := by
  unfold callsSinceTaken
  rw [List.rtakeWhile_concat]
  cases e.isTaken <;> simp

variable [Scalar α]

/-- What may come of a use of a Lagrangian that was built from the multipliers `lam` and the penalty
parameter `rho`, after the events `past`. -/
inductive Follows (lam : Multipliers α) (rho : α) (past : List (Event α)) : Event α → Prop where
  /-- Where the residuals have a fault, the value is not a number, and the objective is not
  evaluated. -/
  | fails {x : Vec α} {r : Residuals α} {e : Failure α} {v : α} :
      r.Fault lam.ineq.length lam.eq.length e → ¬ IsNumber v →
      Follows lam rho past (.evaluated x [⟨.constraints x, r⟩] v)
  /-- Elsewhere the value is that of the Lagrangian, whatever there has been before. -/
  | gives {x : Vec α} {r : Residuals α} {v : α} :
      (∀ e, ¬ r.Fault lam.ineq.length lam.eq.length e) →
      Follows lam rho past (.evaluated x [⟨.constraints x, r⟩, ⟨.objective x, v⟩]
        (v + Vec.dot lam.eq r.eq + Vec.dot lam.ineq r.ineq +
          rho * (total (r.ineq.map fun g => square (larger g 0)) + total (r.eq.map square))))
  /-- What is taken is the fault of the first evaluation since the last time that has one. -/
  | taken {kept : Kept α} :
      (∀ e, kept = some e ↔
        (callsSinceTaken past).FirstFault lam.ineq.length lam.eq.length e) →
      Follows lam rho past (.taken kept)
  /-- The multipliers are those that there were when the Lagrangian was built. -/
  | lookedUp : Follows lam rho past (.lookedUp lam)
  /-- The multipliers that it was built from may take any values. -/
  | reassigned {lam' : Multipliers α} : Follows lam rho past (.reassigned lam')

end Event

/-! ### Sessions -/

/-- A Lagrangian in use. -/
structure Session (α σ : Type) where
  /-- The multipliers that the Lagrangian was built from, as they are by now. -/
  source : Multipliers α
  /-- The Lagrangian. -/
  lagrangian : Lagrangian α
  /-- The failure that it keeps. -/
  kept : Kept α
  /-- The state of the callbacks. -/
  state : σ

/-- Builds a Lagrangian. -/
def Session.build (lam : Multipliers α) (rho : α) (state : σ) : Session α σ :=
  ⟨lam, ⟨lam, rho⟩, none, state⟩

variable [Scalar α]

/-- The dialogue with the problem that a Lagrangian has when it is evaluated. -/
def Lagrangian.evaluation (l : Lagrangian α) (x : Vec α) :
    StateT (Kept α) (Dialogue (Answer α)) α :=
  l.value (fun x => Dialogue.query (A := Answer α) (.objective x))
    (fun x => Dialogue.query (A := Answer α) (.constraints x)) x

/-- Carries out a use. -/
def Use.perform (problem : Callbacks (StateM σ) α) : Use α → StateM (Session α σ) (Event α)
  | .evaluate x => do
    let s ← get
    let ((out, calls), state) :=
      (((s.lagrangian.evaluation x).run s.kept).record problem.answer).run s.state
    set { s with kept := out.2, state := state }
    pure (.evaluated x calls out.1)
  | .take => do
    let s ← get
    let (failure, kept) := Id.run ((Lagrangian.takeFailure : StateT (Kept α) Id (Kept α)).run s.kept)
    set { s with kept := kept }
    pure (.taken failure)
  | .lookUp => do
    let s ← get
    pure (.lookedUp s.lagrangian.multipliers)
  | .reassign lam => do
    modify fun s => { s with source := lam }
    pure (.reassigned lam)

/-! ### What a use keeps -/

/-- An evaluation asks for the constraints, and for the objective if the residuals pass the check. -/
theorem Lagrangian.ends_evaluation_iff {l : Lagrangian α} {x : Vec α} {kept : Kept α}
    {t : Transcript α} {out : α × Kept α} :
    Dialogue.Ends ((l.evaluation x).run kept) t out ↔ ∃ r,
      (∃ e, l.check r = .error e ∧ t = [⟨.constraints x, r⟩] ∧ out = (undefined, kept.keep e)) ∨
        l.check r = .ok () ∧ ∃ v, t = [⟨.constraints x, r⟩, ⟨.objective x, v⟩] ∧
          out = (l.combine v r, kept) := by
  rw [evaluation, run_value, Dialogue.query_bind, Dialogue.ends_ask_iff]
  refine exists_congr fun r => ?_
  cases l.check r with
  | error e => simp [Dialogue.ends_done_iff]
  | ok => simp [Dialogue.ends_ask_iff]

namespace Session

/-- What is known of a session after the events `past`, if it began in the state `s₀` of the
callbacks. -/
structure Keeps (problem : Callbacks (StateM σ) α) (lam : Multipliers α) (rho : α) (s₀ : σ)
    (past : List (Event α)) (s : Session α σ) : Prop where
  /-- The Lagrangian is the one that was built. -/
  lagrangian : s.lagrangian = ⟨lam, rho⟩
  /-- It keeps the first failure since one was last taken. -/
  kept : s.kept = (Event.callsSinceTaken past).firstFailure lam.ineq.length lam.eq.length
  /-- The callbacks have answered the calls, and no others. -/
  calls : Dialogue.Replays problem.answer s₀ (past.flatMap Event.calls) s.state

variable {problem : Callbacks (StateM σ) α} {lam : Multipliers α} {rho : α} {s₀ : σ}
  {past : List (Event α)} {s : Session α σ}

/-- What comes of an evaluation, and the failure kept after it. -/
theorem follows_of_ends_evaluation (hundefined : ¬ IsNumber (undefined : α)) {x : Vec α}
    {calls : Transcript α} {kept : Kept α} {out : α × Kept α}
    (hkept : kept = (Event.callsSinceTaken past).firstFailure lam.ineq.length lam.eq.length)
    (h : Dialogue.Ends ((Lagrangian.evaluation ⟨lam, rho⟩ x).run kept) calls out) :
    Event.Follows lam rho past (.evaluated x calls out.1) ∧
      out.2 = (Event.callsSinceTaken past ++ calls).firstFailure lam.ineq.length lam.eq.length := by
  obtain ⟨r, hr⟩ := Lagrangian.ends_evaluation_iff.mp h
  rcases hr with ⟨e, hcheck, rfl, rfl⟩ | ⟨hcheck, v, rfl, rfl⟩
  · have hfailure : r.failure? lam.ineq.length lam.eq.length = some e :=
      Residuals.failure?_eq_some_iff.mpr hcheck
    refine ⟨.fails (Residuals.check_eq_error_iff.mp hcheck) hundefined, ?_⟩
    rw [Transcript.firstFailure_append, Transcript.firstFailure_constraints_cons, hfailure, ← hkept]
    rfl
  · have hfailure : r.failure? lam.ineq.length lam.eq.length = none :=
      Residuals.failure?_eq_none_iff.mpr hcheck
    refine ⟨.gives (Residuals.failure?_eq_none_iff_fault.mp hfailure), ?_⟩
    have hobjective : Transcript.firstFailure lam.ineq.length lam.eq.length
        [⟨.objective x, v⟩] = none := rfl
    rw [Transcript.firstFailure_append, Transcript.firstFailure_constraints_cons, hfailure,
      hobjective, Option.or_none, Option.or_none, hkept]

/-- **A use keeps what is known of a session**, and gives an event that may follow. -/
theorem Keeps.perform (hundefined : ¬ IsNumber (undefined : α))
    (h : s.Keeps problem lam rho s₀ past) (u : Use α) :
    let p := (u.perform problem).run s
    p.1.use = u ∧ p.1.Follows lam rho past ∧ p.2.Keeps problem lam rho s₀ (past ++ [p.1]) := by
  -- only an evaluation makes calls
  have hcalls : ∀ e : Event α, e.calls = [] →
      Dialogue.Replays problem.answer s₀ ((past ++ [e]).flatMap Event.calls) s.state := by
    intro e he
    simpa [he] using h.calls
  have hkept : ∀ e : Event α, e.isTaken = false → e.calls = [] →
      s.kept = (Event.callsSinceTaken (past ++ [e])).firstFailure lam.ineq.length lam.eq.length := by
    intro e he he'
    simpa [Event.callsSinceTaken_concat, he, he'] using h.kept
  cases u with
  | evaluate x =>
    obtain ⟨source, l, kept, state⟩ := s
    obtain rfl : l = ⟨lam, rho⟩ := h.lagrangian
    let dialogue := (Lagrangian.evaluation ⟨lam, rho⟩ x).run kept
    let record := (dialogue.record problem.answer).run state
    have hends : dialogue.Ends record.1.2 record.1.1 := Dialogue.ends_record dialogue state
    obtain ⟨hfollows, hkept'⟩ := follows_of_ends_evaluation hundefined h.kept hends
    refine ⟨rfl, hfollows, rfl, ?_, ?_⟩
    · rw [Event.callsSinceTaken_concat]
      exact hkept'
    · rw [List.flatMap_append, List.flatMap_singleton]
      exact h.calls.append (Dialogue.replays_record dialogue state)
  | take =>
    refine ⟨rfl, .taken fun e => ?_, h.lagrangian, ?_, hcalls _ rfl⟩
    · rw [← Transcript.firstFailure_eq_some_iff, ← h.kept]
    · rw [Event.callsSinceTaken_concat]
      rfl
  | lookUp =>
    have hlam : s.lagrangian.multipliers = lam := by rw [h.lagrangian]
    refine ⟨rfl, ?_, h.lagrangian, hkept _ rfl rfl, hcalls _ rfl⟩
    change Event.Follows lam rho past (.lookedUp s.lagrangian.multipliers)
    rw [hlam]
    exact .lookedUp
  | reassign lam' => exact ⟨rfl, .reassigned, h.lagrangian, hkept _ rfl rfl, hcalls _ rfl⟩

/-! ### Uses in sequence -/

/-- The first use, and those after it. -/
theorem run_mapM_cons (u : Use α) (uses : List (Use α)) :
    ((u :: uses).mapM (Use.perform problem)).run s =
      let p := (u.perform problem).run s
      let out := (uses.mapM (Use.perform problem)).run p.2
      (p.1 :: out.1, out.2) := by
  rw [List.mapM_cons]
  rfl

/-- **So do uses in sequence**, by induction on them. -/
theorem Keeps.run (hundefined : ¬ IsNumber (undefined : α))
    (h : s.Keeps problem lam rho s₀ past) (uses : List (Use α)) :
    let out := (uses.mapM (Use.perform problem)).run s
    out.1.map Event.use = uses ∧
      (∀ before e after, out.1 = before ++ e :: after → e.Follows lam rho (past ++ before)) ∧
      out.2.Keeps problem lam rho s₀ (past ++ out.1) := by
  induction uses generalizing past s with
  | nil =>
    refine ⟨rfl, fun before e after hsplit => ?_, ?_⟩
    · cases List.append_ne_nil_of_right_ne_nil before (List.cons_ne_nil e after) hsplit.symm
    · change s.Keeps problem lam rho s₀ (past ++ [])
      rwa [List.append_nil]
  | cons u uses ih =>
    obtain ⟨huse, hfollows, hkeeps⟩ := h.perform hundefined u
    obtain ⟨huses, hrest, hend⟩ := ih hkeeps
    rw [run_mapM_cons]
    refine ⟨congrArg₂ List.cons huse huses, fun before e after hsplit => ?_, ?_⟩
    · cases before with
      | nil =>
        obtain ⟨rfl, -⟩ := List.cons.inj hsplit
        rwa [List.append_nil]
      | cons e' before =>
        obtain ⟨rfl, hafter⟩ := List.cons.inj hsplit
        rw [List.append_cons]
        exact hrest before e after hafter
    · rwa [List.append_cons]

/-- **A Lagrangian keeps exactly the first failure since one was last taken**, whatever is done with
it in whatever order, also if the answers of the callbacks change from call to call. There is an event
for each use. A failure that is taken is the fault of the earliest evaluation since the last time that
has one, and there is none to take if no evaluation has. Where the residuals have a fault the value is
not a number and the objective is not evaluated; elsewhere the value is that of the Lagrangian. The
multipliers stay those that it was built from, also if these take other values. The callbacks answer
the calls of the events one after another, and no others. -/
theorem keepsFirst_of_run (problem : Callbacks (StateM σ) Float) (lam : Multipliers Float)
    (rho : Float) (uses : List (Use Float)) (s₀ : σ) :
    let out := (uses.mapM (Use.perform problem)).run (.build lam rho s₀)
    out.1.map Event.use = uses ∧
      (∀ before e after, out.1 = before ++ e :: after → e.Follows lam rho before) ∧
      Dialogue.Replays problem.answer s₀ (out.1.flatMap Event.calls) out.2.state := by
  intro out
  have hbuilt : (Session.build lam rho s₀).Keeps problem lam rho s₀ [] := ⟨rfl, rfl, .nil⟩
  have hundefined : ¬ IsNumber (undefined : Float) := by decide
  obtain ⟨huses, hfollows, hkeeps⟩ := hbuilt.run hundefined uses
  exact ⟨huses, hfollows, hkeeps.calls⟩

end Session

end Optimum
