import Optimum.Difference
import Optimum.Proofs.Paths
import Optimum.Proofs.Scalar.NonFinite

/-!
# What difference quotients expose

An estimate by difference quotients is finite only if all values of the objective that it was made
of are: each value is part of a quotient. The exception is the value at a point without coordinates,
where forward differences evaluate the objective once and give no quotient.
-/

namespace Optimum

open Scalar

namespace Plan

variable {α : Type} [Scalar α]

/-- An estimate is finite only if all values of the objective that it was made of are. -/
def Exposes (plan : Plan α (Vec α)) : Prop :=
  ∀ u g, plan.Ends u g → allFinite g = true → ∀ e ∈ u, isFinite e.answer = true

/-! ### Plans for one element after another -/

section MapM

variable {ι : Type} {quotient : ι → Plan α α} {is : List ι}
  {u : Dialogue.Record (fun _ : Vec α => α)} {g : Vec α}

omit [Scalar α] in
theorem ends_mapM_cons_iff {i : ι} :
    ((i :: is).mapM quotient).Ends u g ↔ ∃ u₁ v u₂ g', (quotient i).Ends u₁ v ∧
      (is.mapM quotient).Ends u₂ g' ∧ u = u₁ ++ u₂ ∧ g = v :: g' := by
  rw [List.mapM_cons, Dialogue.ends_bind_iff]
  constructor
  · intro ⟨u₁, v, u', h₁, h', hu⟩
    obtain ⟨u₂, g', u₃, h₂, h₃, rfl⟩ := Dialogue.ends_bind_iff.mp h'
    obtain ⟨rfl, rfl⟩ := Dialogue.ends_done_iff.mp h₃
    exact ⟨u₁, v, u₂, g', h₁, h₂, by simpa using hu, rfl⟩
  · intro ⟨u₁, v, u₂, g', h₁, h₂, hu, hg⟩
    refine ⟨u₁, v, u₂, h₁, Dialogue.ends_bind_iff.mpr ⟨u₂, g', [], h₂, ?_, by simp⟩, hu⟩
    exact Dialogue.ends_done_iff.mpr ⟨rfl, hg⟩

omit [Scalar α] in
/-- There is an element for each plan. -/
theorem length_of_ends_mapM (h : (is.mapM quotient).Ends u g) : g.length = is.length := by
  induction is generalizing u g with
  | nil =>
    obtain ⟨-, rfl⟩ := Dialogue.ends_done_iff.mp h
    rfl
  | cons i is ih =>
    obtain ⟨u₁, v, u₂, g', -, h₂, -, rfl⟩ := ends_mapM_cons_iff.mp h
    exact congrArg (· + 1) (ih h₂)

/-- If each element is finite only if the values that it was made of are, so is the whole. -/
theorem finite_of_ends_mapM
    (hquotient : ∀ i u v, (quotient i).Ends u v → isFinite v = true →
      ∀ e ∈ u, isFinite e.answer = true)
    (h : (is.mapM quotient).Ends u g) (hg : allFinite g = true) :
    ∀ e ∈ u, isFinite e.answer = true := by
  induction is generalizing u g with
  | nil =>
    obtain ⟨rfl, -⟩ := Dialogue.ends_done_iff.mp h
    exact nofun
  | cons i is ih =>
    obtain ⟨u₁, v, u₂, g', h₁, h₂, rfl, rfl⟩ := ends_mapM_cons_iff.mp h
    rw [allFinite_cons, Bool.and_eq_true] at hg
    intro e he
    rcases List.mem_append.mp he with he | he
    · exact hquotient i u₁ v h₁ hg.1 e he
    · exact ih h₂ hg.2 e he

end MapM

/-! ### The two estimators -/

section Length

variable {x : Vec α} {h : α} {u : Dialogue.Record (fun _ : Vec α => α)} {g : Vec α}

/-- Central differences give an element for each coordinate. -/
theorem length_of_ends_central (hend : (central x h).Ends u g) : g.length = x.length := by
  rw [length_of_ends_mapM hend, List.length_zip, length_perturbed, length_perturbed, Nat.min_self]

/-- So do forward differences. -/
theorem length_of_ends_forward (hend : (forward x h).Ends u g) : g.length = x.length := by
  obtain ⟨f₀, u', rfl, hrest⟩ := Dialogue.ends_ask_iff.mp hend
  rw [length_of_ends_mapM hrest, length_perturbed]

end Length

variable [PassesNonFinite α] {x : Vec α} {h : α}

/-- Central differences expose all values. -/
theorem exposes_central (x : Vec α) (h : α) : (central x h).Exposes := by
  intro u g hend hg
  refine finite_of_ends_mapM ?_ hend hg
  intro ⟨forth, back⟩ u v hquotient hv
  obtain ⟨f₁, u₁, rfl, h₁⟩ := Dialogue.ends_ask_iff.mp hquotient
  obtain ⟨f₂, u₂, rfl, h₂⟩ := Dialogue.ends_ask_iff.mp h₁
  obtain ⟨rfl, rfl⟩ := Dialogue.ends_done_iff.mp h₂
  obtain ⟨hf₁, hf₂⟩ := PassesNonFinite.finite_of_sub (PassesNonFinite.finite_of_div hv)
  intro e he
  rcases List.mem_cons.mp he with rfl | he
  · exact hf₁
  · rw [List.mem_singleton.mp he]
    exact hf₂

/-- Forward differences expose all values, if there is a coordinate. -/
theorem exposes_forward (hx : x ≠ []) (h : α) : (forward x h).Exposes := by
  intro u g hend hg
  obtain ⟨f₀, u', rfl, hrest⟩ := Dialogue.ends_ask_iff.mp hend
  have hquotient : ∀ (forth : Vec α) u v, Dialogue.Ends (do
      let f₁ ← value forth
      pure ((f₁ - f₀) / h) : Plan α α) u v → isFinite v = true →
      isFinite f₀ = true ∧ ∀ e ∈ u, isFinite e.answer = true := by
    intro forth u v hq hv
    obtain ⟨f₁, u₁, rfl, h₁⟩ := Dialogue.ends_ask_iff.mp hq
    obtain ⟨rfl, rfl⟩ := Dialogue.ends_done_iff.mp h₁
    obtain ⟨hf₁, hf₀⟩ := PassesNonFinite.finite_of_sub (PassesNonFinite.finite_of_div hv)
    refine ⟨hf₀, fun e he => ?_⟩
    rw [List.mem_singleton.mp he]
    exact hf₁
  have hall := finite_of_ends_mapM (fun i u v hq hv => (hquotient i u v hq hv).2) hrest hg
  -- the value at the point itself is part of the quotient of the first coordinate
  obtain ⟨forth, rest, hperturbed⟩ : ∃ forth rest, perturbed (· + h) x = forth :: rest := by
    cases hp : perturbed (· + h) x with
    | nil =>
      have hlen := length_perturbed (· + h) x
      rw [hp] at hlen
      exact absurd (List.eq_nil_of_length_eq_zero hlen.symm) hx
    | cons forth rest => exact ⟨forth, rest, rfl⟩
  have hf₀ : isFinite f₀ = true := by
    rw [hperturbed] at hrest
    obtain ⟨u₁, v, u₂, g', h₁, -, -, rfl⟩ := ends_mapM_cons_iff.mp hrest
    rw [allFinite_cons, Bool.and_eq_true] at hg
    exact (hquotient forth u₁ v h₁ hg.1).1
  exact List.forall_mem_cons.mpr ⟨hf₀, hall⟩

end Plan

end Optimum
