import Optimum.Proofs.Descent.Log

/-!
# The log of the augmented Lagrangian method

An outer iteration notes all that its inner run does, and then a line of its own, which names the exit
flag of the inner run and the number of its iterations. So the log of the augmented Lagrangian method is
made of the logs of its inner runs, each with that line after it.

## What is proved

* `Run.debugLog_of_ends_outerIteration`: what an outer iteration notes.
* `Outer.exists_logged_of_ends`: by way of the entries of the loop, the log of a whole run.
* `Run.log_of_recordOn`: the logs of runs of the four solvers.
-/

namespace Optimum

open Scalar

variable {α : Type} [Scalar α]

/-! ### Relayed runs -/

namespace Lagrangian.Relayed

variable {l : Lagrangian α} {kept kept' : Kept α} {t u : Transcript α}

/-- A relayed run notes what the run does. -/
theorem debugLog_eq (h : l.Relayed kept t u kept') : u.debugLog = t.debugLog :=
  congrArg (List.filter _) (h.filterMap_eq (fun _ _ => rfl) (fun _ _ => rfl) fun _ _ => rfl)

end Lagrangian.Relayed

namespace Run

variable {opt : Options α} {lagOpt : LagrangianOptions α} {k : ℕ} {it : OuterIterate α}
  {t : Transcript α}

/-- The exchanges `t` are those of an inner run with the problem. Its outcome is `r`, and its log is
`notes`. -/
def InnerLogged (lagOpt : LagrangianOptions α) (it : OuterIterate α) (t : Transcript α)
    (r : Except (Failure α) (Solution α)) (notes : List (Note α)) : Prop :=
  ∃ inner kept entries, Lagrangian.Relayed ⟨it.multipliers, lagOpt.rho⟩ none inner t kept ∧
    Method.quasiNewton.Logged lagOpt.inner it.x entries inner r ∧ notes = inner.debugLog

/-- Every inner run is logged. -/
theorem exists_innerLogged_of_ends {r : Except (Failure α) (Solution α)}
    (h : Ends (innerRun lagOpt it) t r) :
    ∃ r', InnerLogged lagOpt it t r' t.debugLog ∧ ∀ sol, r = .ok sol → r' = .ok sol := by
  obtain ⟨inner, r', kept, hinner, hrelayed, rfl⟩ := Lagrangian.ends_under h
  have hsolve : Ends (Method.quasiNewton.solve lagOpt.inner it.x) inner r' := hinner
  obtain ⟨entries, hlogged⟩ := Method.exists_logged_of_ends hsolve
  refine ⟨r', ⟨inner, kept, entries, hrelayed, hlogged, hrelayed.debugLog_eq⟩, fun sol hsol => ?_⟩
  cases r' with
  | ok sol' => exact hsol
  | error e => cases hsol

end Run

/-! ### One outer iteration -/

/-- What an outer iteration notes of itself. -/
def OuterIteration.note (i : OuterIteration α) : Note α :=
  .outer i.progress.iteration i.next.f i.residuals.maxViolation i.progress.gradNorm
    i.inner.exitFlag i.inner.iterations

namespace Run

variable {opt : Options α} {lagOpt : LagrangianOptions α} {k : ℕ} {it : OuterIterate α}
  {t : Transcript α}

/-- A completed outer iteration notes what its inner run does, and then itself. -/
theorem debugLog_of_ends_outerIteration {i : OuterIteration α}
    (h : Ends (outerIteration opt lagOpt k it) t (.ok i)) : ∃ u v notes, t = u ++ v ∧
      InnerLogged lagOpt it u (.ok i.inner) notes ∧ t.debugLog = notes ++ [i.note] ∧
      i.progress.iteration = k + 1 ∧ i.progress.objective = i.next.f := by
  obtain ⟨u, inner, r, t₂, g, f, h₁, -, h₂, -, rfl, rfl⟩ := ends_outerIteration_ok_iff.mp h
  obtain ⟨r', hlogged, hok⟩ := exists_innerLogged_of_ends h₁
  rw [hok inner rfl] at hlogged
  have hgradient : Transcript.Quiet t₂ :=
    (AsksOnly.sampling_finiteGradient _ _).quiet.under _ _ _ h₂
  have hquiet : Transcript.Quiet (⟨.constraints inner.x, r⟩ :: t₂) :=
    List.forall_mem_cons.mpr ⟨trivial, hgradient⟩
  refine ⟨u, _, u.debugLog, List.append_assoc _ _ _, hlogged, ?_, rfl, rfl⟩
  rw [Transcript.debugLog_append, Transcript.debugLog_append, hquiet.debugLog, List.append_nil]
  rfl

/-- One that fails notes only what its inner run does, and does not tell the monitor. -/
theorem debugLog_of_ends_outerIteration_error {e : Failure α}
    (h : Ends (outerIteration opt lagOpt k it) t (.error e)) : ∃ u v r, t = u ++ v ∧
      InnerLogged lagOpt it u r t.debugLog ∧ t.progress = [] := by
  obtain ⟨u, v, r, rfl, h₁, hquiet⟩ := exists_quiet_of_ends_outerIteration_error h
  obtain ⟨r', hlogged, -⟩ := exists_innerLogged_of_ends h₁
  refine ⟨u, v, r', rfl, ?_, ?_⟩
  · rwa [Transcript.debugLog_append, hquiet.debugLog, List.append_nil]
  · rw [Transcript.progress_append, progress_of_ends_under h₁, hquiet.progress, List.append_nil]

end Run

/-! ### Whole runs -/

/-- A completed outer iteration. -/
abbrev Outer.Entry (α : Type) := Loop.Entry α (OuterIterate α) (OuterIteration α)

/-- What is left after `n` completed outer iterations, what the log shows of it, and how the run
ends. -/
inductive Outer.Closing (lagOpt : LagrangianOptions α) (n : ℕ) (rest : Transcript α) :
    Except (Failure α) (Solution α × Multipliers α) → Prop where
  /-- The run succeeds, and says so. -/
  | exit {x : Vec α} {f : α} {flag : ExitFlag} {lam : Multipliers α} :
      rest.debugLog = [.outerExit flag n] → Closing lagOpt n rest (.ok (⟨x, f, flag, n⟩, lam))
  /-- It fails before it begins to iterate. -/
  | failure {e : Failure α} : n = 0 → rest.debugLog = [] → Closing lagOpt n rest (.error e)
  /-- It fails in an outer iteration, of which the log shows the inner run. -/
  | unfinished {it : OuterIterate α} {u v : Transcript α} {r : Except (Failure α) (Solution α)}
      {e : Failure α} : rest = u ++ v → Run.InnerLogged lagOpt it u r rest.debugLog →
      Closing lagOpt n rest (.error e)

/-- What the log of a run of the augmented Lagrangian method shows of its completed outer
iterations. -/
structure Outer.Logged (opt : Options α) (lagOpt : LagrangianOptions α)
    (entries : List (Outer.Entry α)) (t : Transcript α)
    (r : Except (Failure α) (Solution α × Multipliers α)) : Prop where
  /-- They are the outer iterations, one after another, each from where the last one led to. -/
  consecutive : (Run.outerLoop opt lagOpt).Consecutive 0 entries
  /-- Each notes what its inner run does, up to the exit, and then itself. -/
  noted : ∀ e ∈ entries, ∃ u v notes, e.during = u ++ v ∧
    Run.InnerLogged lagOpt e.carried u (.ok e.did.inner) notes ∧
    e.during.debugLog = notes ++ [e.did.note]
  /-- They are numbered, and report the objective of the problem. -/
  reported : ∀ e ∈ entries,
    e.did.progress.iteration = e.k + 1 ∧ e.did.progress.objective = e.did.next.f
  /-- The monitor is told of each. -/
  told : t.progress = entries.map fun e => e.did.progress
  /-- They are on record without a break. The log is made of what is noted of each, and of what is
  left. -/
  log : ∃ start rest, t = start ++ entries.flatMap Loop.Entry.exchanges ++ rest ∧
    t.debugLog = (entries.flatMap fun e => e.during.debugLog) ++ rest.debugLog ∧
    Outer.Closing lagOpt entries.length rest r

namespace Outer

variable {opt : Options α} {lagOpt : LagrangianOptions α} {x₀ : Vec α} {t : Transcript α}
  {entries : List (Outer.Entry α)} {r : Except (Failure α) (Solution α × Multipliers α)}

/-- A run that does not begin to iterate notes nothing. -/
theorem logged_nil {e : Failure α} (h : t.Quiet) : Outer.Logged opt lagOpt [] t (.error e) where
  consecutive := ⟨nofun, nofun, rfl, .nil⟩
  noted := nofun
  reported := nofun
  told := h.progress
  log := ⟨[], t, rfl, rfl, .failure rfl h.debugLog⟩

/-- Nothing is asked when an outer iterate is carried on. -/
theorem after_eq_nil (hentries : (Run.outerLoop opt lagOpt).Consecutive 0 entries)
    {e : Outer.Entry α} (he : e ∈ entries) : e.after = [] := by
  rcases hentries.learned e he with hnil | ⟨r', hcarry⟩
  · exact hnil
  · exact (Run.ends_pure_iff.mp hcarry).1

/-- What is left after the last completed outer iteration. -/
theorem closing_of_closes {rest : Transcript α}
    (hentries : (Run.outerLoop opt lagOpt).Consecutive 0 entries)
    (h : (Run.outerLoop opt lagOpt).Closes entries.getLast? rest r) :
    rest.progress = [] ∧ Outer.Closing lagOpt entries.length rest r := by
  generalize hlast : entries.getLast? = last at h
  cases h with
  | fails h =>
    obtain ⟨u, v, r', hrest, hlogged, hprogress⟩ := Run.debugLog_of_ends_outerIteration_error h
    exact ⟨hprogress, .unfinished hrest hlogged⟩
  | @stops last flag _ =>
    have hmade := hentries.made last (List.mem_of_getLast? hlast)
    have hnumber := hentries.number_getLast hlast
    have hiteration : last.did.progress.iteration = entries.length := by
      rw [(Run.progress_of_ends_outerIteration hmade).2, hnumber, Nat.zero_add]
    refine ⟨rfl, ?_⟩
    change Outer.Closing lagOpt _ (Note.written [.outerExit flag last.did.progress.iteration])
      (.ok (⟨last.did.next.x, last.did.next.f, flag, last.did.progress.iteration⟩,
        last.did.next.multipliers))
    rw [hiteration]
    exact .exit rfl
  | breaks hcarry => cases (Run.ends_pure_iff.mp hcarry).2

/-- **The log of a run that iterates.** -/
theorem logged_of_consecutive {start rest : Transcript α} (hstart : start.Quiet)
    (hentries : (Run.outerLoop opt lagOpt).Consecutive 0 entries)
    (hcloses : (Run.outerLoop opt lagOpt).Closes entries.getLast? rest r) :
    Outer.Logged opt lagOpt entries (start ++ entries.flatMap Loop.Entry.exchanges ++ rest) r := by
  obtain ⟨hprogress, hclosing⟩ := closing_of_closes hentries hcloses
  have hduring : ∀ e ∈ entries, e.exchanges = e.during := fun e he => by
    rw [Loop.Entry.exchanges, after_eq_nil hentries he, List.append_nil]
  refine ⟨hentries, fun e he => ?_, fun e he => ?_, ?_, start, rest, rfl, ?_, hclosing⟩
  · obtain ⟨u, v, notes, ht, hinner, hlog, -⟩ :=
      Run.debugLog_of_ends_outerIteration (hentries.made e he)
    exact ⟨u, v, notes, ht, hinner, hlog⟩
  · obtain ⟨-, -, -, -, -, -, hreported⟩ :=
      Run.debugLog_of_ends_outerIteration (hentries.made e he)
    exact hreported
  · rw [Transcript.progress_append, Transcript.progress_append, hstart.progress, hprogress,
      List.nil_append, List.append_nil, Transcript.progress_flatMap, List.map_eq_flatMap]
    refine List.flatMap_congr fun e he => ?_
    rw [hduring e he, (Run.progress_of_ends_outerIteration (hentries.made e he)).1]
  · rw [Transcript.debugLog_append, Transcript.debugLog_append, hstart.debugLog, List.nil_append,
      Transcript.debugLog_flatMap]
    refine congrArg (· ++ rest.debugLog) (List.flatMap_congr fun e he => ?_)
    rw [hduring e he]

/-- **Every run of the augmented Lagrangian method is logged**, whatever the callbacks answer. -/
theorem exists_logged_of_ends (h : Run.Ends (Run.augmentedLagrangian opt lagOpt x₀) t r) :
    ∃ entries, Outer.Logged opt lagOpt entries t r := by
  rcases Run.of_ends_augmentedLagrangian h with
    ⟨e, rfl, hstart⟩ | ⟨a, f, u, -, -, -, -, -, rfl, hrun⟩
  · refine ⟨[], logged_nil fun x hx => ?_⟩
    rcases hstart x hx with hq | hq <;> rw [hq] <;> trivial
  · rw [Run.outerDescend_eq_run] at hrun
    obtain ⟨entries, rest, -, hentries, rfl, hcloses⟩ := (Loop.runs_of_ends hrun).exists_entries
    have hstart : Transcript.Quiet [⟨.constraints x₀, a⟩, ⟨.objective x₀, f⟩] :=
      List.forall_mem_cons.mpr ⟨trivial, List.forall_mem_singleton.mpr trivial⟩
    exact ⟨entries, logged_of_consecutive hstart hentries hcloses⟩

end Outer

end Optimum
