/-
# Dominance and the ridge

A pair of a state and a value is below another one if its value is at most as good
and its state is the same or dominated.  The pairs that trails lead to at a depth
are finitely many, so above each of them there is a peak, which no other pair is
above.  A relation is compatible with the problem when whatever can be decided
below can be matched above (`Dominance.Compatible`).

* `Session.Evolves.covered`: what the table found to be dominated was below a pair
  that a trail leads to, and not that pair itself;
* `Problem.Ridge`: the peaks from which peaks alone lead to the optimum;
* `Problem.ridge_root`: **the root is on the ridge**, since the best trail can be
  lifted from its end upwards, one decision at a time (`Ridge.exists_parent`);
* `Problem.Ridge.not_covered`: **the table never finds a pair of the ridge to be
  dominated**, whichever pairs it was asked about and in which order.
-/

import DiagramSearch.Proofs.Threads
import Mathlib.Data.Set.Finite.List
import Mathlib.Order.Preorder.Finite

namespace DiagramSearch

open Extended Dominance

variable {σ κ : Type}

/-! ### Compatible relations -/

/-- The same state, or one with the same key that is dominated. -/
def Dominance.Below (rel : Dominance σ κ) (a b : σ) : Prop :=
  a = b ∨ ∃ key, rel.key a = some key ∧ rel.key b = some key ∧ rel.le a b = true

/-- A partial order on states with the same key, such that what can be decided in a
state is matched in the states that dominate it. -/
structure Dominance.Compatible (rel : Dominance σ κ) (p : Problem σ Extended) : Prop where
  refl : ∀ a key, rel.key a = some key → rel.le a a = true
  trans : ∀ a b c key, rel.key a = some key → rel.key b = some key → rel.key c = some key →
    rel.le a b = true → rel.le b c = true → rel.le a c = true
  antisymm : ∀ a b key, rel.key a = some key → rel.key b = some key →
    rel.le a b = true → rel.le b a = true → a = b
  matched : ∀ a b key, rel.key a = some key → rel.key b = some key → rel.le a b = true →
    ∀ v, ∀ d ∈ p.domain v a, ∃ d' ∈ p.domain v b,
      p.cost a d ≤ p.cost b d' ∧ rel.Below (p.transition 0 a d) (p.transition 0 b d')

/-! ### What the table holds and finds -/

section Table

variable [BEq σ] [BEq κ] [LawfulBEq κ] {rel : Dominance σ κ} {t : Table σ κ Extended}
  {state : σ} {depth k : Nat} {value v : Extended} {key : κ} {e : Entry σ Extended}

omit [LawfulBEq κ] in
/-- A pair is found to be dominated by an entry that covers it. -/
theorem Dominance.Table.check_eq_some {V : Type} [Value V] {t : Table σ κ V} {value v : V}
    (h : (t.check rel state depth value).1 = some v) :
    ∃ key, rel.key state = some key ∧ ∃ e ∈ t.entries depth key,
      e.covers rel state value = true ∧ e.value = v := by
  unfold Table.check at h
  split at h
  · cases h
  · rename_i key hkey
    dsimp only at h
    split at h
    · rename_i e he
      have hcovers := List.find?_some he
      exact ⟨key, hkey, e, List.mem_of_find?_eq_some he, hcovers, Option.some.inj h⟩
    · cases h

/-- A check adds at most the pair that was asked about. -/
theorem Dominance.Table.mem_entries_check
    (h : e ∈ (t.check rel state depth value).2.entries k key) :
    e ∈ t.entries k key ∨ (k = depth ∧ rel.key state = some key ∧ e = ⟨state, value⟩) := by
  unfold Table.check at h
  split at h
  · exact .inl h
  · rename_i own hown
    dsimp only at h
    split at h
    · exact .inl h
    · rw [Table.entries, Register.get?_put] at h
      split at h
      · rename_i heq
        obtain ⟨rfl, rfl⟩ := Prod.mk.inj (eq_of_beq heq)
        rcases List.mem_append.1 h with h | h
        · exact .inl (List.mem_filter.1 h).1
        · exact .inr ⟨rfl, hown, List.mem_singleton.1 h⟩
      · exact .inl h

/-- A check leaves the groups of other depths and keys alone. -/
theorem Dominance.Table.entries_check_of_ne {V : Type} [Value V] {t : Table σ κ V} {value : V}
    (hne : ¬ (k = depth ∧ rel.key state = some key)) :
    (t.check rel state depth value).2.entries k key = t.entries k key := by
  unfold Table.check
  split
  · rfl
  · rename_i own hown
    dsimp only
    split
    · rfl
    · have hother : ((k, key) == (depth, own)) = false := by
        refine beq_false_of_ne fun heq => hne ?_
        obtain ⟨rfl, rfl⟩ := Prod.mk.inj heq
        exact ⟨rfl, hown⟩
      rw [Table.entries, Register.get?_put, hother]
      rfl

/-- The groups of a depth that is not asked about stay as they are. -/
theorem Session.Evolves.entries_eq {V : Type} [Value V] {rel : Option (Dominance σ κ)}
    {real : σ → Nat → V → Prop} {s s' : Session σ κ V} (h : s.Evolves rel real s')
    (hk : ∀ state value, ¬real state k value) (key : κ) :
    s'.table.entries k key = s.table.entries k key := by
  induction h with
  | refl => rfl
  | check _ hreal ih =>
    cases rel with
    | none => exact ih
    | some rel =>
      refine (Table.entries_check_of_ne ?_).trans ih
      rintro ⟨rfl, _⟩
      exact hk _ _ hreal
  | calm _ hcalm ih => rw [hcalm.table, ih]

/-- The entries of a table are pairs of a given kind, each under its key. -/
def Dominance.Table.Holds (t : Table σ κ Extended) (rel : Dominance σ κ)
    (real : σ → Nat → Extended → Prop) : Prop :=
  ∀ k key, ∀ e ∈ t.entries k key, real e.state k e.value ∧ rel.key e.state = some key

variable {real : σ → Nat → Extended → Prop} {s s' : Session σ κ Extended}

/-- **The table holds nothing but what it was asked about.** -/
theorem Session.Evolves.holds (h : s.Evolves (some rel) real s') (hs : s.table.Holds rel real) :
    s'.table.Holds rel real := by
  induction h with
  | refl => exact hs
  | check _ hreal ih =>
    intro k key e he
    rcases Table.mem_entries_check he with he | ⟨rfl, hkey, rfl⟩
    · exact ih k key e he
    · exact ⟨hreal, hkey⟩
  | calm _ hcalm ih =>
    rw [hcalm.table]
    exact ih

/-- **What was found to be dominated was covered by a pair of the given kind.** -/
theorem Session.Evolves.covered (h : s.Evolves (some rel) real s') (hs : s.table.Holds rel real)
    (hfresh : ∀ state k value verdict, .checked state k value verdict ∉ s.events)
    (hmem : .checked state k value (some v) ∈ s'.events) :
    ∃ e : Entry σ Extended, real e.state k e.value ∧
      (∃ key, rel.key state = some key ∧ rel.key e.state = some key) ∧
      e.covers rel state value = true ∧ e.value = v := by
  induction h with
  | refl => exact absurd hmem (hfresh state k value (some v))
  | @check s₁ st d w h₁ _ ih =>
    rcases List.mem_cons.1 hmem with heq | hmem
    · obtain ⟨rfl, rfl, rfl, hverdict⟩ := Event.checked.inj heq
      obtain ⟨key, hkey, e, he, hcovers, hvalue⟩ := Table.check_eq_some hverdict.symm
      obtain ⟨hreal, hkey'⟩ := h₁.holds hs k key e he
      exact ⟨e, hreal, ⟨key, hkey, hkey'⟩, hcovers, hvalue⟩
    · exact ih hmem
  | calm _ hcalm ih =>
    obtain ⟨new, hnew, hcheck⟩ := hcalm.journal
    rw [hnew] at hmem
    rcases List.mem_append.1 hmem with hmem | hmem
    · exact absurd hmem (hcheck state k value (some v))
    · exact ih hmem

end Table

/-! ### Peaks -/

section Peaks

variable {rel : Dominance σ κ} {p : Problem σ Extended} {b : Branching σ} {k : Nat}

theorem Dominance.Compatible.below_trans (hrel : rel.Compatible p) {a c e : σ}
    (h : rel.Below a c) (h' : rel.Below c e) : rel.Below a e := by
  rcases h with rfl | ⟨key, ha, hc, hle⟩
  · exact h'
  · rcases h' with rfl | ⟨key', hc', he, hle'⟩
    · exact .inr ⟨key, ha, hc, hle⟩
    · obtain rfl := Option.some.inj (hc.symm.trans hc')
      exact .inr ⟨key, ha, he, hrel.trans _ _ _ key ha hc he hle hle'⟩

theorem Dominance.Compatible.below_antisymm (hrel : rel.Compatible p) {a c : σ}
    (h : rel.Below a c) (h' : rel.Below c a) : a = c := by
  rcases h with rfl | ⟨key, ha, hc, hle⟩
  · rfl
  · rcases h' with rfl | ⟨_, _, _, hle'⟩
    · rfl
    · exact hrel.antisymm a c key ha hc hle hle'

/-- What can be decided in a state is matched in every state it is below. -/
theorem Dominance.Compatible.matches (hrel : rel.Compatible p) {a c : σ} (h : rel.Below a c)
    {v : Nat} {d : Decision} (hd : d ∈ p.domain v a) : ∃ d' ∈ p.domain v c,
      p.cost a d ≤ p.cost c d' ∧ rel.Below (p.transition 0 a d) (p.transition 0 c d') := by
  rcases h with rfl | ⟨key, ha, hc, hle⟩
  · exact ⟨d, hd, le_rfl, .inl rfl⟩
  · exact hrel.matched a c key ha hc hle v d hd

/-- Pairs of a state and a value, ordered by both. -/
abbrev Dominance.Compatible.preorder (hrel : rel.Compatible p) : Preorder (σ × Extended) where
  le x y := rel.Below x.1 y.1 ∧ x.2 ≤ y.2
  le_refl x := ⟨.inl rfl, le_rfl⟩
  le_trans x y z h h' := ⟨hrel.below_trans h.1 h'.1, h.2.trans h'.2⟩

namespace Problem

theorem Reaches.step {s : σ} {v : Extended}
    {x : { x : Nat // x ∈ b.freeAt (.all p.variables) k }} {d : Decision} (h : p.Reaches b s k v)
    (hx : b (b.freeAt (.all p.variables) k) [] = some x) (hd : d ∈ p.domain x s) :
    p.Reaches b (p.transition 0 s d) (k + 1) (v + p.cost s d) := by
  obtain ⟨ds, hlen, hds⟩ := h
  refine ⟨d :: ds, by rw [List.length_cons, hlen], ?_⟩
  rw [Branching.freeAt, Branching.rest_of_some hx]
  exact .step hds hx hd

/-- The last decision of a trail. -/
theorem Reaches.exists_step {s' : σ} {v' : Extended} (h : p.Reaches b s' (k + 1) v') :
    ∃ s v x d, p.Reaches b s k v ∧ b (b.freeAt (.all p.variables) k) [] = some x ∧
      d ∈ p.domain x s ∧ s' = p.transition 0 s d ∧ v' = v + p.cost s d := by
  obtain ⟨ds, hlen, hds⟩ := h
  generalize b.freeAt (.all p.variables) (k + 1) = free at hds
  cases hds with
  | refl => cases hlen
  | @step ds free s v x d hds hx hd =>
    have hlen' : ds.length = k := Nat.succ.inj hlen
    obtain rfl : free = b.freeAt (.all p.variables) k := by
      rw [← hlen']
      exact hds.free_eq_freeAt
    exact ⟨s, v, x, d, ⟨ds, hlen', hds⟩, hx, hd, rfl, rfl⟩

/-- Trails lead to finitely many pairs at a depth. -/
theorem finite_reaches (p : Problem σ Extended) (b : Branching σ) (k : Nat) :
    { x : σ × Extended | p.Reaches b x.1 k x.2 }.Finite := by
  induction k with
  | zero =>
    refine (Set.finite_singleton (p.initialState, p.initialValue)).subset ?_
    rintro ⟨s, v⟩ ⟨ds, hlen, hds⟩
    obtain rfl := List.length_eq_zero_iff.1 hlen
    cases hds
    rfl
  | succ k ih =>
    cases hx : b (b.freeAt (.all p.variables) k) [] with
    | none =>
      refine Set.finite_empty.subset fun x h => ?_
      obtain ⟨_, _, _, _, _, hsome, _⟩ := Reaches.exists_step h
      cases hx.symm.trans hsome
    | some x =>
      refine (ih.biUnion fun y _ => ((p.domain x y.1).map fun d =>
        (p.transition 0 y.1 d, y.2 + p.cost y.1 d)).finite_toSet).subset fun y h => ?_
      obtain ⟨s, v, x', d, hs, hx', hd, hstate, hvalue⟩ := Reaches.exists_step h
      obtain rfl := Option.some.inj (hx.symm.trans hx')
      refine Set.mem_biUnion (show (s, v) ∈ _ from hs) (List.mem_map.2 ⟨d, hd, ?_⟩)
      rw [← hstate, ← hvalue]

/-- A pair that trails lead to, which no other such pair is above. -/
structure Peak (p : Problem σ Extended) (b : Branching σ) (rel : Dominance σ κ) (k : Nat) (s : σ)
    (v : Extended) : Prop where
  reached : p.Reaches b s k v
  highest : ∀ s' v', p.Reaches b s' k v' → rel.Below s s' → v ≤ v' → s' = s ∧ v' = v

/-- **Above each pair there is a peak.** -/
theorem exists_peak (hrel : rel.Compatible p) {s : σ} {v : Extended} (h : p.Reaches b s k v) :
    ∃ s' v', p.Peak b rel k s' v' ∧ rel.Below s s' ∧ v ≤ v' := by
  let _ := hrel.preorder
  obtain ⟨⟨s', v'⟩, hle, hmax⟩ := (finite_reaches p b k).exists_le_maximal
    (show (s, v) ∈ { x : σ × Extended | p.Reaches b x.1 k x.2 } from h)
  refine ⟨s', v', ⟨hmax.1, fun s₂ v₂ hreach hbelow hval => ?_⟩, hle.1, hle.2⟩
  have hback : (s₂, v₂) ≤ (s', v') := hmax.2 hreach ⟨hbelow, hval⟩
  exact ⟨hrel.below_antisymm hback.1 hbelow, le_antisymm hback.2 hval⟩

/-! ### The ridge -/

/-- Peaks from which the target is reached through peaks. -/
inductive Ridge (p : Problem σ Extended) (b : Branching σ) (rel : Dominance σ κ)
    (target : Extended) : Nat → σ → Extended → Prop where
  | last {k : Nat} {s : σ} {v : Extended} (hpeak : p.Peak b rel k s v)
      (hend : b (b.freeAt (.all p.variables) k) [] = none) (hreach : target ≤ v) :
      Ridge p b rel target k s v
  | step {k : Nat} {s : σ} {v : Extended}
      {x : { x : Nat // x ∈ b.freeAt (.all p.variables) k }} {d : Decision}
      (hpeak : p.Peak b rel k s v) (hx : b (b.freeAt (.all p.variables) k) [] = some x)
      (hd : d ∈ p.domain x s)
      (hnext : Ridge p b rel target (k + 1) (p.transition 0 s d) (v + p.cost s d)) :
      Ridge p b rel target k s v

variable {target : Extended} {s : σ} {v : Extended}

namespace Ridge

theorem peak (h : p.Ridge b rel target k s v) : p.Peak b rel k s v := by
  cases h with
  | last hpeak => exact hpeak
  | step hpeak => exact hpeak

theorem reach (h : p.Ridge b rel target k s v) : target ≤ v + p.optimumFrom b k s := by
  induction h with
  | last _ hend hreach =>
    rw [optimumFrom, optimum_of_none hend, add_zero]
    exact hreach
  | @step k s v x d _ hx hd _ ih =>
    rw [optimumFrom, Branching.freeAt, Branching.rest_of_some hx, add_assoc] at ih
    exact ih.trans (add_le_add_right (le_optimum hx hd) v)

/-- **A pair of the ridge is not covered by another pair.** -/
theorem not_covered [BEq σ] [LawfulBEq σ] {w : Extended} {e : Entry σ Extended}
    (h : p.Ridge b rel target k s v) (hle : v ≤ w) (he : p.Reaches b e.state k e.value)
    (hkey : ∃ key, rel.key s = some key ∧ rel.key e.state = some key) :
    e.covers rel s w = false := by
  refine Bool.eq_false_iff.2 fun hcovers => ?_
  simp only [Entry.covers, Bool.and_eq_true, decide_eq_true_eq, Bool.not_eq_true'] at hcovers
  obtain ⟨⟨hvalue, hstate⟩, hother⟩ := hcovers
  obtain ⟨key, hs, hes⟩ := hkey
  obtain ⟨hsame, hequal⟩ := h.peak.highest e.state e.value he (.inr ⟨key, hs, hes, hstate⟩)
    (hle.trans hvalue)
  -- The entry is the pair itself, which the table makes an exception for.
  have hw : w = e.value := le_antisymm hvalue (hequal.trans_le hle)
  have hbeq : (w == e.value) = true := decide_eq_true hw
  rw [hbeq, hsame, beq_self_eq_true] at hother
  cases hother

end Ridge

/-- A pair on the ridge is lifted by one decision. -/
theorem Ridge.exists_parent (hrel : rel.Compatible p) (h : p.Ridge b rel target (k + 1) s v) :
    ∃ s' v', p.Ridge b rel target k s' v' := by
  obtain ⟨s₀, v₀, x, d, hreach, hx, hd, hstate, hvalue⟩ := h.peak.reached.exists_step
  obtain ⟨s', v', hpeak, hbelow, hle⟩ := exists_peak hrel hreach
  obtain ⟨d', hd', hcost, hbelow'⟩ := hrel.matches hbelow hd
  -- What the peak above the parent leads to is above the pair, hence the pair.
  obtain ⟨hsame, hequal⟩ := h.peak.highest _ _ (hpeak.reached.step hx hd')
    (by rw [hstate]; exact hbelow') (by rw [hvalue]; exact add_le_add hle hcost)
  exact ⟨s', v', .step hpeak hx hd' (by rw [hsame, hequal]; exact h)⟩

/-- The best trail can be taken to the end. -/
theorem exists_reaches_last (hb : b.Total) (htarget : target ≠ negInf)
    (hle : target ≤ p.total b) : ∃ k s v, p.Reaches b s k v ∧
      b (b.freeAt (.all p.variables) k) [] = none ∧ target ≤ v := by
  have hthread := thread_all htarget hle
  have hwalk : ∀ k, k ≤ p.variables → ∃ s v, p.Reaches b s k v ∧
      target ≤ v + p.optimumFrom b k s := by
    intro k
    induction k with
    | zero => exact fun _ => ⟨p.initialState, p.initialValue, ⟨[], rfl, .refl⟩, hle⟩
    | succ k ih =>
      intro hk
      obtain ⟨s, v, hreach, hopt⟩ := ih (Nat.le_of_succ_le hk)
      have hsize := hb.size_freeAt (.all p.variables) k
      have hall : (Variables.all p.variables).size = p.variables := List.length_range
      have hsome := hb (b.freeAt (.all p.variables) k) [] (by omega)
      obtain ⟨x, hx⟩ := Option.isSome_iff_exists.1 hsome
      obtain ⟨d, hd, hopt'⟩ := hthread.step k s v x hopt hx
      exact ⟨_, _, hreach.step hx hd, hopt'⟩
  obtain ⟨s, v, hreach, hopt⟩ := hwalk p.variables le_rfl
  have hsize := hb.size_freeAt (.all p.variables) p.variables
  have hall : (Variables.all p.variables).size = p.variables := List.length_range
  have hnone : b (b.freeAt (.all p.variables) p.variables) [] = none :=
    Branching.eq_none_of_size (by omega)
  refine ⟨p.variables, s, v, hreach, hnone, ?_⟩
  rwa [optimumFrom, optimum_of_none hnone, add_zero] at hopt

/-- **The root is on the ridge.** -/
theorem ridge_root (hrel : rel.Compatible p) (hb : b.Total) (htarget : target ≠ negInf)
    (hle : target ≤ p.total b) : p.Ridge b rel target 0 p.initialState p.initialValue := by
  obtain ⟨k, s, v, hreach, hnone, hv⟩ := exists_reaches_last hb htarget hle
  obtain ⟨s', v', hpeak, _, hv'⟩ := exists_peak hrel hreach
  have hlift : ∀ k s v, p.Ridge b rel target k s v → ∃ s v, p.Ridge b rel target 0 s v := by
    intro k
    induction k with
    | zero => exact fun s v h => ⟨s, v, h⟩
    | succ k ih =>
      intro s v h
      obtain ⟨s', v', h'⟩ := h.exists_parent hrel
      exact ih s' v' h'
  obtain ⟨s₀, v₀, h₀⟩ := hlift k s' v' (.last hpeak hnone (hv.trans hv'))
  obtain ⟨ds, hlen, hds⟩ := h₀.peak.reached
  obtain rfl := List.length_eq_zero_iff.1 hlen
  cases hds
  exact h₀

/-- **The ridge is a thread to the optimum.** -/
theorem thread_ridge (hrel : rel.Compatible p) (hb : b.Total) (htarget : target ≠ negInf)
    (hle : target ≤ p.total b) : p.Thread b target (p.Ridge b rel target) where
  target_ne := htarget
  start := ridge_root hrel hb htarget hle
  reach _ _ _ h := h.reach
  step k s v x h hx := by
    cases h with
    | last _ hend _ => cases hx.symm.trans hend
    | step _ hx' hd hnext =>
      obtain rfl := Option.some.inj (hx.symm.trans hx')
      exact ⟨_, hd, hnext⟩
  raise k s v v' h hle hreach := by
    obtain ⟨_, rfl⟩ := h.peak.highest s v' hreach (.inl rfl) hle
    exact h

end Problem
end Peaks
end DiagramSearch
