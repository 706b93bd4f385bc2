import Optimum.Proofs.Descent.Decrease
import Optimum.Proofs.Log

/-!
# The log of a descent

The log of a descent tells its course: for each completed iteration a line if its line search took an
end of the interval, a line of what the monitor is told, and, if the run goes on, a line if the update
rule refused for want of curvature. A run that succeeds says at the end why it stopped, and after how
many iterations; of an iteration that fails at most the line search is noted.

## What is proved

* `Run.debugLog_of_ends_iteration` and `Method.debugLog_of_ends_absorb`: what one iteration notes, and
  what a method notes when it learns.
* `Method.exists_logged_of_ends`: by way of the entries of the loop, the log of a whole run.
-/

namespace Optimum

open Scalar

variable {α : Type}

/-! ### Parts that note nothing, or one thing -/

theorem Step.debugLog_written_notes (step : Step α) :
    Transcript.debugLog (Note.written step.notes) = step.notes := by
  rw [Transcript.debugLog_written, notes]
  split <;> rfl

theorem Strategy.debugLog_written_refusal (answer : Except (Failure α) (Mat α)) :
    Transcript.debugLog (Note.written (refusal answer)) = refusal answer := by
  rw [Transcript.debugLog_written]
  unfold refusal
  split <;> rfl

theorem Found.quiet_written_notes (found : Found α) :
    Transcript.Quiet (Note.written found.notes) := by
  refine List.forall_mem_map.mpr fun n hn => ?_
  unfold notes at hn
  split at hn
  · rcases List.mem_cons.mp hn with rfl | hn
    · rfl
    · rw [List.mem_singleton.mp hn]
      rfl
  · rw [List.mem_singleton.mp hn]
    rfl

variable [Scalar α]

/-! ### One iteration -/

namespace Run

variable {opt : Options α} {x s : Vec α} {f₀ : α} {t : Transcript α}

theorem quiet_onLine (x s : Vec α) (u : Dialogue.Record (fun _ : α => α)) :
    (onLine x s u).Quiet := List.forall_mem_map.mpr fun _ _ => trivial

/-- The exchanges of a line search before it chooses its step. -/
theorem quiet_searched (x s : Vec α) (u : Dialogue.Record (fun _ : α => α)) (found : Found α)
    (v : α) : Transcript.Quiet (onLine x s u ++ Note.written found.notes ++
      [⟨.objective (x.along s 1), v⟩]) :=
  ((quiet_onLine x s u).append found.quiet_written_notes).append
    (List.forall_mem_singleton.mpr trivial)

/-- A line search notes whether it took an end of its interval, which is then the step length. -/
theorem debugLog_of_ends_lineSearch {step : Step α}
    (h : Ends (lineSearch opt x s f₀) t (.ok step)) :
    t.debugLog = step.notes ∧ (step.bracketed = false → step.alpha = 0 ∨ step.alpha = 1) := by
  obtain ⟨u, found, v, -, -, -, rfl, rfl⟩ := ends_lineSearch_ok_iff.mp h
  constructor
  · rw [Transcript.debugLog_append, (quiet_searched x s u found v).debugLog, List.nil_append,
      Step.debugLog_written_notes]
  · rcases Step.choose_cases found.best f₀ v with heq | heq | heq <;> rw [heq]
    · exact nofun
    · exact fun _ => .inl rfl
    · exact fun _ => .inr rfl

theorem quiet_of_ends_lineSearch_error {e : Failure α}
    (h : Ends (lineSearch opt x s f₀) t (.error e)) : t.Quiet := by
  rcases ends_lineSearch_error_iff.mp h with h | ⟨u, found, v, -, -, -, -, rfl⟩
  · exact AsksOnly.quiet (.run (AsksOnly.sampling_alongLine x s) _) _ _ h
  · exact quiet_searched x s u found v

variable {S : Type} {strategy : Strategy α S} {k : ℕ} {it : Iterate α} {memory : S}

/-- The step of an iteration is that of its line search. -/
theorem step_of_ends_iteration {i : Iteration α S}
    (h : Ends (iteration strategy opt k it memory) t (.ok i)) : ∃ u v, t = u ++ v ∧
      Ends (lineSearch opt it.x (unitDirection strategy k it memory) it.f) u (.ok i.step) ∧
      i.progress = ⟨k + 1, i.next.f, Vec.norm i.next.g, Vec.distance i.next.x it.x,
        i.step.alpha⟩ := by
  obtain ⟨t₁, t₂, step, next, h₁, -, rfl, rfl⟩ := ends_iteration_ok_iff.mp h
  exact ⟨t₁, _, List.append_assoc _ _ _, h₁, rfl⟩

/-- A completed iteration notes what its line search does, and what it tells the monitor. -/
theorem debugLog_of_ends_iteration {i : Iteration α S}
    (h : Ends (iteration strategy opt k it memory) t (.ok i)) :
    t.debugLog = i.step.notes ++ [.iteration i.progress] := by
  obtain ⟨t₁, t₂, step, next, h₁, h₂, rfl, rfl⟩ := ends_iteration_ok_iff.mp h
  have hquiet : t₂.Quiet := (AsksOnly.sampling_iterate _ _).quiet _ _ h₂
  rw [Transcript.debugLog_append, Transcript.debugLog_append, (debugLog_of_ends_lineSearch h₁).1,
    hquiet.debugLog, List.append_nil]
  rfl

/-- One that fails notes at most what its line search does. -/
theorem debugLog_of_ends_iteration_error {e : Failure α}
    (h : Ends (iteration strategy opt k it memory) t (.error e)) :
    t.debugLog = [] ∨ ∃ a, (a = 0 ∨ a = 1) ∧ t.debugLog = [.notBracketed a] := by
  rcases ends_iteration_error_iff.mp h with h₁ | ⟨t₁, t₂, step, h₁, h₂, rfl⟩
  · exact .inl (quiet_of_ends_lineSearch_error h₁).debugLog
  · have hquiet : t₂.Quiet := (AsksOnly.sampling_iterate _ _).quiet _ _ h₂
    obtain ⟨hlog, hends⟩ := debugLog_of_ends_lineSearch h₁
    rw [Transcript.debugLog_append, hlog, hquiet.debugLog, List.append_nil, Step.notes]
    cases hbracketed : step.bracketed with
    | true => exact .inl rfl
    | false => exact .inr ⟨step.alpha, hends hbracketed, rfl⟩

end Run

/-- A method notes an update that the rule refuses for want of curvature. -/
theorem Method.debugLog_of_ends_absorb {method : Method} {n : ℕ} {prev next : Iterate α}
    {memory : method.Memory α} {t : Transcript α} {r : Except (Failure α) (method.Memory α)}
    (h : Run.Ends ((method.strategy n).absorb prev next memory) t r) :
    t.debugLog = t.updates.flatMap Strategy.refusal := by
  cases method with
  | steepestDescent =>
    obtain ⟨rfl, -⟩ := Run.ends_pure_iff.mp h
    rfl
  | conjugateGradient =>
    obtain ⟨rfl, -⟩ := Run.ends_pure_iff.mp h
    rfl
  | quasiNewton =>
    obtain ⟨answer, rfl, -⟩ := Strategy.ends_absorb_quasiNewton_iff.mp h
    have hnotes := (Transcript.evaluates_written (Strategy.refusal answer)).updates
    have hupdates : Transcript.updates (⟨.update memory (next.x.sub prev.x)
        (next.g.sub prev.g), answer⟩ :: Note.written (Strategy.refusal answer)) = [answer] :=
      congrArg (answer :: ·) hnotes
    rw [hupdates, List.flatMap_singleton]
    exact Strategy.debugLog_written_refusal answer

/-! ### Whole runs -/

/-- A completed iteration of a descent. -/
abbrev Descent.Entry (α S : Type) := Loop.Entry α (Iterate α × S) (Iteration α S)

/-- What a completed iteration notes, together with what the method notes when it learns from it. -/
def Descent.Entry.log {S : Type} (e : Descent.Entry α S) : List (Note α) :=
  e.did.step.notes ++ .iteration e.did.progress :: e.after.updates.flatMap Strategy.refusal

/-- What the log of a descent shows after `n` completed iterations, and how the run ends. -/
inductive Descent.Closing (n : ℕ) : List (Note α) → Except (Failure α) (Solution α) → Prop where
  /-- The run succeeds, and says so. -/
  | exit {x : Vec α} {f : α} {flag : ExitFlag} : Closing n [.exit flag n] (.ok ⟨x, f, flag, n⟩)
  /-- It fails. -/
  | failure {e : Failure α} : Closing n [] (.error e)
  /-- It fails in an iteration whose line search took an end of its interval. -/
  | unfinished {a : α} {e : Failure α} : a = 0 ∨ a = 1 → Closing n [.notBracketed a] (.error e)

/-- What the log of a run of a method shows of its completed iterations. -/
structure Method.Logged (method : Method) (opt : Options α) (x₀ : Vec α)
    (entries : List (Descent.Entry α (method.Memory α))) (t : Transcript α)
    (r : Except (Failure α) (Solution α)) : Prop where
  /-- They are the iterations, one after another, each from where the last one led to. -/
  consecutive : (Run.descentLoop (method.strategy x₀.length) opt).Consecutive 0 entries
  /-- They are on record without a break. -/
  contained : entries.flatMap Loop.Entry.exchanges <:+: t
  /-- The step of each is that of its line search, and what it reports is of the iterate to which the
  step leads. -/
  searched : ∀ e ∈ entries, ∃ u v, e.during = u ++ v ∧
    Run.Ends (Run.lineSearch opt e.carried.1.x
      (Run.unitDirection (method.strategy x₀.length) e.k e.carried.1 e.carried.2) e.carried.1.f) u
      (.ok e.did.step) ∧
    e.did.progress = ⟨e.k + 1, e.did.next.f, Vec.norm e.did.next.g,
      Vec.distance e.did.next.x e.carried.1.x, e.did.step.alpha⟩
  /-- Where a line search takes an end of its interval, the step length is zero or one. -/
  boundary : ∀ e ∈ entries, e.did.step.bracketed = false →
    e.did.progress.alpha = 0 ∨ e.did.progress.alpha = 1
  /-- The monitor is told of each. -/
  told : t.progress = entries.map fun e => e.did.progress
  /-- The update rule is called after each, as far as the run goes on. -/
  answered : t.updates = entries.flatMap fun e => e.after.updates
  /-- After the last iteration of a run that succeeds it is not called. -/
  final : ∀ sol, r = .ok sol → ∀ e ∈ entries.getLast?, e.after = []
  /-- The log is made of what is noted of each, and of how the run ends. -/
  log : ∃ rest, t.debugLog = entries.flatMap Descent.Entry.log ++ rest ∧
    Descent.Closing entries.length rest r

namespace Method

variable {method : Method} {opt : Options α} {x₀ : Vec α} {t : Transcript α}
  {entries : List (Descent.Entry α (method.Memory α))} {r : Except (Failure α) (Solution α)}

/-- A run that does not begin to iterate notes nothing. -/
theorem logged_nil {e : Failure α} (h : t.Quiet) : method.Logged opt x₀ [] t (.error e) where
  consecutive := ⟨nofun, nofun, rfl, .nil⟩
  contained := List.nil_infix
  searched := nofun
  boundary := nofun
  told := h.progress
  answered := h.updates
  final := nofun
  log := ⟨[], h.debugLog, .failure⟩

/-- What is left after the last completed iteration. -/
theorem views_of_closes {last : Option (Descent.Entry α (method.Memory α))} {rest : Transcript α}
    (h : (Run.descentLoop (method.strategy x₀.length) opt).Closes last rest r) :
    rest.progress = [] ∧ rest.updates = [] ∧ ∀ sol, r = .ok sol → ∀ e ∈ last, e.after = [] := by
  cases h with
  | fails h =>
    exact ⟨Run.progress_of_ends_iteration_error h, (Run.evaluates_of_ends_iteration h).updates, nofun⟩
  | stops hafter =>
    refine ⟨rfl, rfl, fun _ _ e he => ?_⟩
    cases he
    exact hafter
  | breaks _ => exact ⟨rfl, rfl, nofun⟩

/-- What the log shows of it. -/
theorem closing_of_closes {rest : Transcript α}
    (hentries : (Run.descentLoop (method.strategy x₀.length) opt).Consecutive 0 entries)
    (h : (Run.descentLoop (method.strategy x₀.length) opt).Closes entries.getLast? rest r) :
    Descent.Closing entries.length rest.debugLog r := by
  generalize hlast : entries.getLast? = last at h
  cases h with
  | fails h =>
    rcases Run.debugLog_of_ends_iteration_error h with hnil | ⟨a, ha, hlog⟩
    · rw [hnil]
      exact .failure
    · rw [hlog]
      exact .unfinished ha
  | @stops last flag _ =>
    have hmade := hentries.made last (List.mem_of_getLast? hlast)
    have hnumber := hentries.number_getLast hlast
    have hiteration : last.did.progress.iteration = entries.length := by
      obtain ⟨-, -, -, -, hprogress⟩ := Run.step_of_ends_iteration hmade
      rw [hprogress, hnumber, Nat.zero_add]
    change Descent.Closing _ [.exit flag last.did.progress.iteration]
      (.ok ⟨last.did.next.x, last.did.next.f, flag, last.did.progress.iteration⟩)
    rw [hiteration]
    exact .exit
  | breaks _ => exact .failure

/-- What an entry shows. -/
theorem views_of_entry
    (hentries : (Run.descentLoop (method.strategy x₀.length) opt).Consecutive 0 entries)
    {e : Descent.Entry α (method.Memory α)} (he : e ∈ entries) :
    e.exchanges.progress = [e.did.progress] ∧ e.exchanges.updates = e.after.updates ∧
      e.exchanges.debugLog = e.log := by
  have hmade := hentries.made e he
  have hafter : e.after.progress = [] ∧ e.after.debugLog = e.after.updates.flatMap Strategy.refusal := by
    rcases hentries.learned e he with hnil | ⟨r', hcarry⟩
    · rw [hnil]
      exact ⟨rfl, rfl⟩
    · obtain ⟨r', habsorb⟩ : ∃ r', Run.Ends ((method.strategy x₀.length).absorb e.carried.1
          e.did.next e.did.memory) e.after r' := by
        rcases Run.ends_bind_iff.mp hcarry with ⟨e', h, -⟩ | ⟨t₁, m, t₂, h₁, h₂, ht⟩
        · exact ⟨_, h⟩
        · obtain ⟨rfl, -⟩ := Run.ends_pure_iff.mp h₂
          rw [ht, List.append_nil]
          exact ⟨_, h₁⟩
      exact ⟨(aside_absorb habsorb).progress, debugLog_of_ends_absorb habsorb⟩
  rw [Loop.Entry.exchanges, Transcript.progress_append, Transcript.updates_append,
    Transcript.debugLog_append, (Run.views_of_ends_iteration hmade).2, hafter.1, hafter.2,
    (Run.evaluates_of_ends_iteration hmade).updates, Run.debugLog_of_ends_iteration hmade]
  exact ⟨rfl, rfl, by rw [Descent.Entry.log, List.append_assoc, List.singleton_append]⟩

/-- **The log of a run that iterates.** -/
theorem logged_of_consecutive {start rest : Transcript α} (hstart : start.Quiet)
    (hentries : (Run.descentLoop (method.strategy x₀.length) opt).Consecutive 0 entries)
    (hcloses : (Run.descentLoop (method.strategy x₀.length) opt).Closes entries.getLast? rest r) :
    method.Logged opt x₀ entries (start ++ entries.flatMap Loop.Entry.exchanges ++ rest) r := by
  obtain ⟨hprogress, hupdates, hfinal⟩ := views_of_closes hcloses
  have hviews := fun e he => views_of_entry hentries (e := e) he
  have hsearched := fun e he => Run.step_of_ends_iteration (hentries.made e he)
  refine ⟨hentries, List.infix_append _ _ _, hsearched, fun e he hbracketed => ?_, ?_, ?_, hfinal,
    rest.debugLog, ?_, closing_of_closes hentries hcloses⟩
  · obtain ⟨u, v, -, hsearch, hreport⟩ := hsearched e he
    rw [hreport]
    exact (Run.debugLog_of_ends_lineSearch hsearch).2 hbracketed
  · rw [Transcript.progress_append, Transcript.progress_append, hstart.progress, hprogress,
      List.nil_append, List.append_nil, Transcript.progress_flatMap, List.map_eq_flatMap]
    exact List.flatMap_congr fun e he => (hviews e he).1
  · rw [Transcript.updates_append, Transcript.updates_append, hstart.updates, hupdates,
      List.nil_append, List.append_nil, Transcript.updates_flatMap]
    exact List.flatMap_congr fun e he => (hviews e he).2.1
  · rw [Transcript.debugLog_append, Transcript.debugLog_append, hstart.debugLog, List.nil_append,
      Transcript.debugLog_flatMap]
    exact congrArg (· ++ rest.debugLog) (List.flatMap_congr fun e he => (hviews e he).2.2)

/-- **Every run of a method is logged**, whatever the callbacks answer. -/
theorem exists_logged_of_ends (h : Run.Ends (method.solve opt x₀) t r) :
    ∃ entries, method.Logged opt x₀ entries t r := by
  rw [solve_eq] at h
  obtain ⟨stages, h⟩ := Run.ends_minimize_iff.mp h
  cases h with
  | unusable _ => exact ⟨[], logged_nil nofun⟩
  | empty _ _ => exact ⟨[], logged_nil nofun⟩
  | unstarted _ _ h₁ =>
    exact ⟨[], logged_nil ((Run.AsksOnly.sampling_iterate _ _).quiet _ _ h₁)⟩
  | @descends t u it stages r _ _ h₁ h₂ =>
    have hrun : Run.Ends (Run.descend (method.strategy x₀.length) opt (opt.maxIt - 1) 0 it
        (method.initial x₀.length)) u r := Run.ends_descend_iff.mpr ⟨stages, h₂⟩
    rw [Run.descend_eq_run] at hrun
    obtain ⟨entries, rest, -, hentries, rfl, hcloses⟩ := (Loop.runs_of_ends hrun).exists_entries
    rw [← List.append_assoc]
    have hstart : t.Quiet := (Run.AsksOnly.sampling_iterate _ _).quiet _ _ h₁
    exact ⟨entries, logged_of_consecutive hstart hentries hcloses⟩

end Method

end Optimum
