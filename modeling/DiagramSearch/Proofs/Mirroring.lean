/-
# Minimising is maximising what is negated

Values are negated on their way into the engine when it is to minimise, and negated again on
their way out.  So to minimise a model is to maximise another one, in which all values are
negated and the bounds change places: the engine is asked the same, opens, takes and skips
the same sub-problems, and its answers differ in the signs.

* `Model.negated`: the model with its values negated;
* `Solver.mirrored`: the same solver of that model;
* `Solver.solve_mirrored`: **minimising with the one is maximising with the other**, for a
  search, however long it is watched, and for a single diagram of each kind.
-/

import DiagramSearch.Proofs.Accounting
import DiagramSearch.Proofs.Matching

namespace DiagramSearch

variable {σ κ V : Type}

/-! ### The other model -/

section Negated

variable [Value V]

/-- The problem with its values negated. -/
def Problem.negated (p : Problem σ V) : Problem σ V :=
  { p with
    initialValue := -p.initialValue
    cost := fun s d => -p.cost s d }

/-- The relaxation of that problem: what bounded values from below bounds the negated ones
from above. -/
def Relaxation.negated (r : Relaxation σ V) : Relaxation σ V where
  merge := r.merge
  relax source target merged d c := -r.relax source target merged d (-c)
  upperBound s free := -r.lowerBound s free
  lowerBound s free := -r.upperBound s free

/-- The model with its values negated. -/
def Model.negated (m : Model σ V) : Model σ V := ⟨m.problem.negated, m.relaxation.negated⟩

/-- **The engine is shown the same.** -/
theorem Model.negated_orient (m : Model σ V) : m.negated.orient .maximize = m.orient .minimize :=
  rfl

end Negated

/-! ### Gaps -/

/-- Magnitudes are symmetric about nought. -/
class Value.Symmetric (V : Type) [Value V] : Prop where
  isFinite_neg (a : V) : isFinite (-a) = isFinite a
  abs_neg (a : V) : abs (-a) = abs a
  abs_neg_sub_neg (a b : V) : abs (-a - -b) = abs (a - b)

instance : Value.Symmetric Extended where
  isFinite_neg a := Sense.minimize.isFinite_orient a
  abs_neg a := by
    change (Extended.neg a).abs = a.abs
    cases a with
    | finite q => rw [Extended.neg, Extended.abs_finite, Extended.abs_finite, abs_neg]
    | negInf => rfl
    | posInf => rfl
  abs_neg_sub_neg a b := by
    change ((Extended.neg a).add (Extended.neg b).neg).abs = (a.add (Extended.neg b)).abs
    cases a with
    | finite q =>
      cases b with
      | finite r =>
        have hopposite : -q + - -r = -(q + -r) := by linarith
        simp only [Extended.neg, Extended.add, Extended.abs_finite]
        rw [hopposite, abs_neg]
      | negInf => rfl
      | posInf => rfl
    | negInf => cases b <;> rfl
    | posInf => cases b <;> rfl

/-- So a gap is that of the negated values. -/
theorem Statistics.gap_orient [Value V] [Value.Symmetric V] (τ : Sense) (stats : Statistics V) :
    (stats.orient τ).gap = stats.gap := by
  cases τ with
  | maximize => rw [Statistics.orient_maximize]
  | minimize =>
    unfold Statistics.gap Statistics.orient
    cases stats.incumbent with
    | none => rfl
    | some v =>
      cases stats.bound with
      | none => rfl
      | some b =>
        change Value.gap (some (-v)) (some (-b)) = Value.gap (some v) (some b)
        unfold Value.gap
        dsimp only
        rw [Value.Symmetric.isFinite_neg, Value.Symmetric.isFinite_neg, Value.Symmetric.abs_neg,
          Value.Symmetric.abs_neg, Value.Symmetric.abs_neg_sub_neg]

/-! ### Both runs -/

/-- Two cutoffs that answer the same on statistics with opposite values, each by its own
clock. -/
def Cutoff.Mirrors [Value V] (cutoff cutoff' : Cutoff V) (clock clock' : Nat → Nat) : Prop :=
  ∀ stats : Statistics V,
    cutoff { stats.orient .minimize with elapsed := clock stats.iterations } =
      cutoff' { stats with elapsed := clock' stats.iterations }

theorem Cutoff.Mirrors.agree [Value V] {cutoff cutoff' : Cutoff V} {clock clock' : Nat → Nat}
    (h : cutoff.Mirrors cutoff' clock clock') {stats stats' : Statistics V}
    (hsame : stats.untimed = (stats'.orient .minimize).untimed)
    (htime : stats.elapsed = clock stats.iterations)
    (htime' : stats'.elapsed = clock' stats'.iterations) : cutoff stats = cutoff' stats' := by
  have hiterations : stats.iterations = stats'.iterations :=
    (congrArg Statistics.iterations hsame :)
  have hleft : { stats'.orient .minimize with elapsed := clock stats'.iterations } = stats := by
    rw [← hiterations, ← htime]
    exact (congrArg (fun x : Statistics V => { x with elapsed := stats.elapsed }) hsame).symm
  have hright : { stats' with elapsed := clock' stats'.iterations } = stats' := by
    rw [← htime']
  have hanswer := h stats'
  rw [hleft, hright] at hanswer
  exact hanswer

namespace Solver

variable [Value V]

/-- The same solver of the negated model, by another clock. -/
def mirrored (s : Solver σ κ V) (clock : Nat → Nat) : Solver σ κ V :=
  { s with
    settings := { s.settings with model := s.settings.model.negated, clock }
    primal := s.primal.map fun p => (-p.1, p.2) }

/-- Two runs that are the same to the engine, and whose users are told opposite values, at
different times. -/
structure Opposite (s t : Solver σ κ V)
    (outcome outcome' : Option (Except (Fault σ V) (Statistics V))) : Prop where
  popped : s.session.popped = t.session.popped
  /-- Sub-problems are as good, and solutions the same; so are the counters and the status. -/
  standing : s.standing = { t.standing with sense := .minimize }
  statistics : s.statistics.untimed = (t.statistics.orient .minimize).untimed
  gap : s.statistics.gap = t.statistics.gap
  /-- All that was reported and handed out. -/
  journal : s.session.journal.map Event.untimed =
    t.session.journal.map fun e => (e.orient .minimize).untimed
  outcome : outcome.map (Except.map Statistics.untimed) =
    outcome'.map fun last => (orientOutcome .minimize last).map Statistics.untimed

/-- The senses, and what leaves the engine. -/
def opposition (cutoff cutoff' : Cutoff V) : Duet V where
  sense := .minimize
  sense' := .maximize
  cutoff
  cutoff'
  through := .minimize
  closer := false
  counted := true

variable {cutoff cutoff' : Cutoff V}

/-- Both put the same question to the engine. -/
theorem matched_mirrored (s : Solver σ κ V) {clock : Nat → Nat}
    (hcutoff : cutoff.Mirrors cutoff' s.settings.clock clock) :
    Matched (opposition cutoff cutoff') s (s.mirrored clock) where
  settings :=
    { rest := rfl
      model := s.settings.model.negated_orient
      checks := .inl rfl
      bears := .inr rfl
      stops := fun p => hcutoff.agree
        (Standing.statistics_orient (p := { p with sense := .minimize }) (fun _ => rfl) _ _) rfl rfl
      turn := rfl
      leaves := fun _ => rfl }
  primal := by
    cases hprimal : s.primal with
    | none =>
      change _ = (s.primal.map _).map _
      rw [hprimal]
      rfl
    | some first =>
      change _ = (s.primal.map _).map _
      rw [hprimal]
      rfl
  applications _ := rfl

/-- What is the same to the engine is the opposite to the user. -/
theorem Attuned.opposite [Value.Symmetric V] {s t : Solver σ κ V}
    (h : Attuned (opposition cutoff cutoff') s t)
    {outcome outcome' : Option (Except (Fault σ V) (Statistics V))}
    (houtcome : outcome.map (Except.map Statistics.untimed) =
      outcome'.map fun last => (orientOutcome .minimize last).map Statistics.untimed) :
    Opposite s t outcome outcome' where
  popped := h.popped_eq
  standing := by
    have hsense : s.standing.sense = .minimize := h.facing
    rw [h.standing, ← hsense]
  statistics := h.statistics
  gap := by
    have hgap : s.statistics.untimed.gap = (t.statistics.orient .minimize).untimed.gap :=
      congrArg Statistics.gap h.statistics
    exact hgap.trans (t.statistics.gap_orient .minimize)
  journal := h.journal rfl
  outcome := houtcome

variable [BEq σ] [Hashable σ] [BEq κ]

/-- **Minimising is maximising what is negated.**  Whatever the model, the solver that
minimises it and the one that maximises the negated model take the same sub-problems, end
with the same status after as many of them, hand out the same solutions in the same order,
and report opposite values, whether they come to an end or meet a fault. -/
theorem solve_mirrored [Value.Symmetric V] (s : Solver σ κ V) (clock : Nat → Nat)
    (hcutoff : cutoff.Mirrors cutoff' s.settings.clock clock) :
    (∀ rounds, Opposite (s.solve rounds .minimize cutoff).1
      ((s.mirrored clock).solve rounds .maximize cutoff').1
      (s.solve rounds .minimize cutoff).2 ((s.mirrored clock).solve rounds .maximize cutoff').2) ∧
    ∀ kind, Opposite (s.solveOnce kind .minimize cutoff).1
      ((s.mirrored clock).solveOnce kind .maximize cutoff').1
      (some (s.solveOnce kind .minimize cutoff).2)
      (some ((s.mirrored clock).solveOnce kind .maximize cutoff').2) := by
  have hmatched := s.matched_mirrored hcutoff
  refine ⟨fun rounds => ?_, fun kind => ?_⟩
  · rcases hmatched.solve rounds with ⟨hcloser, _⟩ | ⟨hbeside, houtcome⟩
    · cases hcloser
    · exact hbeside.toAttuned.opposite houtcome
  · obtain ⟨hattuned, houtcome⟩ := hmatched.solveOnce rfl kind
    exact hattuned.opposite (congrArg some houtcome)

open Extended

/-- Both searches meet the wrong bound of the root, and keep what they started from. -/
theorem solve_mirrored_careless :
    let s := (ofSettings { carelessSettings with checks := .extended }).startFrom (finite 2)
      [⟨1, 1⟩, ⟨0, 1⟩]
    let minimised := s.solve 20 .minimize (Cutoff.belowGap 0)
    let maximised := (s.mirrored id).solve 20 .maximize (Cutoff.belowGap 0)
    minimised.2.map Except.toBool = some false ∧
      minimised.1.statistics.incumbent = some (finite 2) ∧
      maximised.1.statistics.incumbent = some (finite (-2)) ∧
      Opposite minimised.1 maximised.1 minimised.2 maximised.2 := by
  intro s minimised maximised
  have hcutoff : (Cutoff.belowGap (0 : Extended)).Mirrors (Cutoff.belowGap 0) s.settings.clock id :=
    fun stats => congrArg (fun gap : Extended => decide (gap ≤ 0)) (stats.gap_orient .minimize)
  exact ⟨by decide +kernel, by decide +kernel, by decide +kernel,
    (s.solve_mirrored id hcutoff).1 20⟩

end Solver
end DiagramSearch
