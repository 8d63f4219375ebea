/-
# Decisions in the order in which they are taken

`Problem.Follows` says where decisions lead, whatever the branching rule and
whatever the values: each of them is listed by the domain of a variable in the
state reached so far, and their costs are added one by one.

Little is asked of the values.  An undefined value is one that is not even `≤`
itself; `Value.Lawful` lists what the comparisons and the sum have in common in
exact and in floating-point arithmetic, where sums are rounded, the two zeros are
equal without being the same, and undefined values may turn up anywhere.

* `Problem.Follows.defined`: a sum that is defined was defined all along;
* `Problem.Follows.of_orient`: decisions that lead somewhere in the problem that
  the engine maximises lead there in the user's terms, and the totals are equal
  up to the sign of the sense.  Opposite ends must not make up a sum of costs
  (`Problem.Summable`), which in floating point they never do;
* `Problem.Attests`: a path that lists its decisions segment by segment, the
  deepest of each segment first.
-/

import Mathlib.Data.List.Induction
import Mathlib.Data.List.Nodup
import Mathlib.Data.List.Perm.Subperm
import DiagramSearch.Proofs.ExactValues
import DiagramSearch.Completions
import DiagramSearch.Subproblem

namespace DiagramSearch

namespace Value

/-- Two opposite ends of the line. -/
def Opposes {V : Type} [Value V] (a b : V) : Prop :=
  isInfinite a = true ∧ isInfinite b = true ∧ (a == b) = false

/-- Two values whose sum is undefined should they be opposite ends.  In floating
point that is so of any two values. -/
def Adds {V : Type} [Value V] (a b : V) : Prop :=
  Opposes a b → ¬a + b ≤ a + b

/-- What exact and floating-point values have in common.  A value `a` with
`a ≤ a` is defined; nothing is said of the others. -/
class Lawful (V : Type) [Value V] : Prop where
  /-- What is greater than something is defined. -/
  defined_of_lt {a b : V} : a < b → b ≤ b
  lt_trans {a b c : V} : a < b → b < c → a < c
  /-- Defined values are comparable. -/
  lt_of_not_lt {a b c : V} : a ≤ a → ¬b < a → b < c → a < c
  /-- A sum is defined only if what was added to is. -/
  defined_of_add {a b : V} : a + b ≤ a + b → a ≤ a
  beq_of_defined {a : V} : a ≤ a → (a == a) = true
  defined_of_beq {a b : V} : (a == b) = true → a ≤ a
  beq_trans {a b c : V} : (a == b) = true → (b == c) = true → (a == c) = true
  /-- Equal values have equal sums. -/
  add_beq {a b c : V} : (a == b) = true → b + c ≤ b + c → (a + c == b + c) = true
  neg_neg (a : V) : -(-a) = a
  neg_beq {a b : V} : (a == b) = true → (-a == -b) = true
  /-- Sums are symmetric about nought. -/
  neg_add {a b : V} : Adds a b → -a + -b ≤ -a + -b → (-(a + b) == -a + -b) = true

end Value

namespace Extended

theorem beq_iff {a b : Extended} : (a == b) = true ↔ a = b := decide_eq_true_iff

instance : Value.Lawful Extended where
  defined_of_lt _ := le_rfl
  lt_trans := lt_trans
  lt_of_not_lt _ h := lt_of_le_of_lt (not_lt.1 h)
  defined_of_add _ := le_rfl
  beq_of_defined _ := beq_iff.2 rfl
  defined_of_beq _ := le_rfl
  beq_trans h h' := beq_iff.2 ((beq_iff.1 h).trans (beq_iff.1 h'))
  add_beq h _ := beq_iff.2 (congrArg (· + _) (beq_iff.1 h))
  neg_neg := Sense.minimize.orient_orient
  neg_beq h := beq_iff.2 (congrArg (-·) (beq_iff.1 h))
  neg_add {a b} hadds _ := by
    -- Only the sum of opposite ends is not symmetric.
    refine beq_iff.2 ?_
    change (a + b).neg = a.neg + b.neg
    cases a <;> cases b
    case negInf.posInf => exact absurd le_rfl (hadds ⟨rfl, rfl, rfl⟩)
    case posInf.negInf => exact absurd le_rfl (hadds ⟨rfl, rfl, rfl⟩)
    case finite.finite x y _ => exact congrArg finite (neg_add x y)
    all_goals rfl

end Extended

namespace Sense

open Value

variable {V : Type} [Value V] [Lawful V] (sense : Sense) {a b c v : V}

theorem orient_beq (h : (a == b) = true) : (sense.orient a == sense.orient b) = true := by
  cases sense with
  | maximize => exact h
  | minimize => exact Lawful.neg_beq h

theorem orient_involutive (a : V) : sense.orient (sense.orient a) = a := by
  cases sense with
  | maximize => rfl
  | minimize => exact Lawful.neg_neg a

theorem orient_defined (h : a ≤ a) : sense.orient a ≤ sense.orient a :=
  Lawful.defined_of_beq (sense.orient_beq (Lawful.beq_of_defined h))

/-- One more cost keeps two totals equal, each in its own space. -/
theorem orient_add_beq (hadds : Adds a c) (h : (sense.orient a == v) = true)
    (hdef : v + sense.orient c ≤ v + sense.orient c) :
    (sense.orient (a + c) == v + sense.orient c) = true := by
  have hsum : (sense.orient a + sense.orient c == v + sense.orient c) = true :=
    Lawful.add_beq h hdef
  cases sense with
  | maximize => exact hsum
  | minimize => exact Lawful.beq_trans (Lawful.neg_add hadds (Lawful.defined_of_beq hsum)) hsum

end Sense

/-! ### Following decisions -/

variable {σ V : Type} [Value V]

namespace Problem

/-- Where decisions lead from a state of a given value, the first decision first.
Each is possible in the state reached so far, for some variable. -/
inductive Follows (p : Problem σ V) : Path → σ → V → σ → V → Prop where
  | nil (s : σ) (v : V) : Follows p [] s v s v
  | cons {x : Nat} {d : Decision} {ds : Path} {s s' : σ} {v v' : V} (hx : x < p.variables)
      (hd : d ∈ p.domain x s)
      (h : Follows p ds (p.transition 0 s d) (v + p.cost s d) s' v') :
      Follows p (d :: ds) s v s' v'

/-- Where opposite ends meet on the way from a state, they have no sum. -/
def SummableFrom (p : Problem σ V) (s : σ) (v : V) : Prop :=
  ∀ ds s' v', p.Follows ds s v s' v' → ∀ x < p.variables, ∀ d ∈ p.domain x s',
    Value.Adds v' (p.cost s' d)

/-- Where opposite ends meet in a sum of costs, they have no sum. -/
def Summable (p : Problem σ V) : Prop := p.SummableFrom p.initialState p.initialValue

namespace Follows

variable {p : Problem σ V} {ds es : Path} {s s' s'' : σ} {v v' v'' : V}

theorem append (h : p.Follows ds s v s' v') (h' : p.Follows es s' v' s'' v'') :
    p.Follows (ds ++ es) s v s'' v'' := by
  induction h with
  | nil => exact h'
  | cons hx hd _ ih => exact .cons hx hd (ih h')

theorem snoc {x : Nat} {d : Decision} (h : p.Follows ds s v s' v') (hx : x < p.variables)
    (hd : d ∈ p.domain x s') :
    p.Follows (ds ++ [d]) s v (p.transition 0 s' d) (v' + p.cost s' d) :=
  h.append (.cons hx hd (.nil _ _))

/-- **A total that is defined was defined all along.** -/
theorem defined [Value.Lawful V] (h : p.Follows ds s v s' v') (hdef : v' ≤ v') : v ≤ v := by
  induction h with
  | nil => exact hdef
  | cons _ _ _ ih => exact Value.Lawful.defined_of_add (ih hdef)

/-- **Decisions lead to the same state in the user's terms, and the total is the
same up to the sense.** -/
theorem of_orient [Value.Lawful V] {sense : Sense} {u : V}
    (h : (p.orient sense).Follows ds s v s' v') (hdef : v' ≤ v')
    (hu : (sense.orient u == v) = true) (hsum : p.SummableFrom s u) :
    ∃ u', p.Follows ds s u s' u' ∧ (sense.orient u' == v') = true := by
  induction h generalizing u with
  | nil s v => exact ⟨u, .nil s u, hu⟩
  | @cons x d ds s s' v v' hx hd h ih =>
    have hadds : Value.Adds u (p.cost s d) := hsum [] s u (.nil s u) x hx d hd
    have hnext := sense.orient_add_beq hadds hu (h.defined hdef)
    obtain ⟨u', hu', heq⟩ := ih hdef hnext fun es s'' u'' hes =>
      hsum (d :: es) s'' u'' (.cons hx hd hes)
    exact ⟨u', .cons hx hd hu', heq⟩

end Follows

/-! ### Paths in segments -/

/-- A path that leads from the root to a state of a given value.  It is listed in
segments, each with its deepest decision first, and where a segment ends one of
the given paths ends. -/
def Attests (p : Problem σ V) (ends : Path → Prop) (path : Path) (s : σ) (v : V) : Prop :=
  ∃ segments : List Path, segments.flatten = path ∧
    p.Follows (segments.map List.reverse).flatten p.initialState p.initialValue s v ∧
    ∀ front, front <+: segments → front ≠ segments → ends front.flatten

namespace Attests

variable {p : Problem σ V} {ends ends' : Path → Prop} {path ds : Path} {s s' : σ} {v v' : V}

theorem root (p : Problem σ V) (ends : Path → Prop) :
    p.Attests ends [] p.initialState p.initialValue :=
  ⟨[], rfl, .nil _ _, fun _ hfront hne => absurd (List.prefix_nil.1 hfront) hne⟩

theorem mono (himp : ∀ path, ends path → ends' path) (h : p.Attests ends path s v) :
    p.Attests ends' path s v := by
  obtain ⟨segments, hpath, hfollows, hends⟩ := h
  exact ⟨segments, hpath, hfollows, fun front hfront hne => himp _ (hends front hfront hne)⟩

/-- **One more segment**, listed with its deepest decision first. -/
theorem extend (h : p.Attests ends path s v) (hend : ends path)
    (hds : p.Follows ds.reverse s v s' v') : p.Attests ends (path ++ ds) s' v' := by
  obtain ⟨segments, rfl, hfollows, hends⟩ := h
  refine ⟨segments ++ [ds], ?_, ?_, fun front hfront hne => ?_⟩
  · simp
  · simpa using hfollows.append hds
  · rcases List.prefix_concat_iff.1 hfront with rfl | hfront
    · exact absurd rfl hne
    · by_cases hall : front = segments
      · rw [hall]
        exact hend
      · exact hends front hfront hall

theorem defined [Value.Lawful V] (h : p.Attests ends path s v) (hdef : v ≤ v) :
    p.initialValue ≤ p.initialValue := by
  obtain ⟨_, _, hfollows, _⟩ := h
  exact hfollows.defined hdef

/-- **A path leads to the same state in the user's terms, of the same value.** -/
theorem of_orient [Value.Lawful V] {sense : Sense} (hsum : p.Summable)
    (h : (p.orient sense).Attests ends path s v) (hdef : v ≤ v) :
    ∃ u, p.Attests ends path s u ∧ (u == sense.orient v) = true := by
  have hstart := Value.Lawful.beq_of_defined (h.defined hdef)
  obtain ⟨segments, hpath, hfollows, hends⟩ := h
  obtain ⟨u, hu, heq⟩ := hfollows.of_orient hdef hstart hsum
  refine ⟨u, ⟨segments, hpath, hu, hends⟩, ?_⟩
  have hback := sense.orient_beq heq
  rwa [sense.orient_involutive] at hback

end Attests
end Problem

/-! ### The variables of a path -/

theorem Subproblem.mem_freeAfter {n x : Nat} {path : Path} :
    x ∈ freeAfter n path ↔ x < n ∧ x ∉ path.map (·.var) := by
  unfold freeAfter
  induction path using List.reverseRecOn with
  | nil => simp
  | append_singleton path d ih =>
    rw [List.foldl_append, List.foldl_cons, List.foldl_nil, Variables.mem_erase, ih,
      List.map_append]
    simp only [List.mem_append, List.map_cons, List.map_nil, List.mem_singleton, not_or, and_assoc]

theorem Variables.nodup (s : Variables) : s.toList.Nodup :=
  s.increasing.imp fun h => Nat.ne_of_lt h

/-- A path that gives each variable at most one value leaves the others free. -/
theorem Subproblem.freeAfter_perm {n : Nat} {path : Path}
    (h : (path.map (·.var)).Subperm (List.range n)) :
    (path.map (·.var) ++ (freeAfter n path).toList).Perm (List.range n) := by
  have hnodup : (path.map (·.var)).Nodup := by
    obtain ⟨l, hperm, hsub⟩ := h
    exact hperm.nodup_iff.1 (List.nodup_range.sublist hsub)
  refine (List.perm_ext_iff_of_nodup ?_ List.nodup_range).2 fun x => ?_
  · refine hnodup.append (Variables.nodup _) fun x hx hfree => ?_
    exact (Subproblem.mem_freeAfter.1 hfree).2 hx
  · rw [List.mem_append, ← Variables.mem_def, Subproblem.mem_freeAfter, List.mem_range]
    constructor
    · rintro (hx | ⟨hx, _⟩)
      · exact List.mem_range.1 (h.subset hx)
      · exact hx
    · intro hx
      by_cases hmem : x ∈ path.map (·.var)
      · exact .inl hmem
      · exact .inr ⟨hx, hmem⟩

end DiagramSearch
