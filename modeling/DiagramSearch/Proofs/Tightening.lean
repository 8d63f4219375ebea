/-
# A cache only tightens

A cache is told thresholds for many states and depths, one after the other, and its layers
are emptied in between.  A threshold that replaces another one may be less than it in one
respect: a greater value that was not explored takes the place of a smaller one that was.
It is greater all the same, so what a layer remembers of a state is the greatest threshold
told since the layer was emptied, in whatever order they came, and it turns away all that
any of them did.

* `Value.IsLine`: values without an undefined one and with a single zero;
* `Threshold.isLE_order_iff`, `Threshold.admits_eq_false_iff`: the order of thresholds, and
  what a threshold turns away as a comparison in that order;
* `Cache.Records`: the invariant of a cache that obeys commands, `Records.run` for one of
  them and `obey_records` for all;
* `Cache.obey_tightens`: **what a cache holds after any commands, and what it turns away
  from then on.**
-/

import Mathlib.Data.List.TakeWhile
import DiagramSearch.Cache
import DiagramSearch.Proofs.Presenting

namespace DiagramSearch

variable {σ V : Type}

/-! ### Lines -/

/-- A range of values on which the order of sorting is that of the comparisons. -/
structure Value.IsLine [Value V] (range : V → Prop) : Prop extends Value.IsOrder range where
  lt_iff : ∀ a b, range a → range b → (a < b ↔ ¬b ≤ a)
  order_lt : ∀ a b, range a → range b → (Value.order a b = .lt ↔ a < b)
  order_gt : ∀ a b, range a → range b → (Value.order a b = .gt ↔ b < a)

/-- All values of exact arithmetic are on a line. -/
theorem Extended.isLine : Value.IsLine (V := Extended) fun _ => True where
  toIsOrder := Extended.isOrder
  lt_iff _ _ _ _ := not_le.symm
  order_lt _ _ _ _ := order_eq_lt_iff
  order_gt _ _ _ _ := order_eq_gt_iff

variable [Value V] {range : V → Prop}

theorem Value.IsLine.total (hrange : Value.IsLine range) {a b : V} (ha : range a)
    (hb : range b) : a ≤ b ∨ b ≤ a := by
  by_cases hle : a ≤ b
  · exact .inl hle
  · -- What is not below is above, and nothing is on both sides.
    have hgt : Value.order a b = .gt :=
      (hrange.order_gt a b ha hb).2 ((hrange.lt_iff b a hb ha).2 hle)
    have hnot : ¬a < b := by
      intro hlt
      rw [(hrange.order_lt a b ha hb).2 hlt] at hgt
      cases hgt
    exact .inr (not_not.1 (mt (hrange.lt_iff a b ha hb).2 hnot))

/-! ### Thresholds -/

namespace Threshold

variable {t u w : Threshold V}

/-- **Thresholds are ordered by their values, and then the explored one is the greater.** -/
theorem isLE_order_iff (hrange : Value.IsLine range) (ht : range t.value) (hu : range u.value) :
    (t.order u).isLE = true ↔
      t.value ≤ u.value ∧ (u.value ≤ t.value → t.explored = true → u.explored = true) := by
  have hlt := hrange.order_lt _ _ ht hu
  have hgt := hrange.order_gt _ _ ht hu
  rw [hrange.lt_iff _ _ ht hu] at hlt
  rw [hrange.lt_iff _ _ hu ht] at hgt
  unfold order
  cases horder : Value.order t.value u.value with
  | lt =>
    have hbelow := hlt.1 horder
    have hle := (hrange.total ht hu).resolve_right hbelow
    simp [hle, hbelow]
  | gt =>
    have habove := hgt.1 horder
    simp [habove]
  | eq =>
    rw [horder] at hlt hgt
    have hge : u.value ≤ t.value := by simpa using hlt
    have hle : t.value ≤ u.value := by simpa using hgt
    simp only [hle, hge, true_and, forall_const, Ordering.then]
    cases t.explored <;> cases u.explored <;> decide

theorem isLE_order_refl (hrange : Value.IsLine range) (ht : range t.value) :
    (t.order t).isLE = true :=
  (isLE_order_iff hrange ht ht).2 ⟨hrange.refl _ ht, fun _ h => h⟩

theorem isLE_order_trans (hrange : Value.IsLine range) (ht : range t.value) (hu : range u.value)
    (hw : range w.value) (htu : (t.order u).isLE = true) (huw : (u.order w).isLE = true) :
    (t.order w).isLE = true := by
  obtain ⟨htu, hexplored⟩ := (isLE_order_iff hrange ht hu).1 htu
  obtain ⟨huw, hexplored'⟩ := (isLE_order_iff hrange hu hw).1 huw
  refine (isLE_order_iff hrange ht hw).2 ⟨hrange.trans _ _ _ ht hu hw htu huw, ?_⟩
  intro hback hmarked
  exact hexplored' (hrange.trans _ _ _ hw ht hu hback htu)
    (hexplored (hrange.trans _ _ _ hu hw ht huw hback) hmarked)

theorem isLE_order_antisymm (hrange : Value.IsLine range) (ht : range t.value)
    (hu : range u.value) (htu : (t.order u).isLE = true) (hut : (u.order t).isLE = true) :
    t = u := by
  obtain ⟨hle, hexplored⟩ := (isLE_order_iff hrange ht hu).1 htu
  obtain ⟨hge, hexplored'⟩ := (isLE_order_iff hrange hu ht).1 hut
  have hvalue := hrange.antisymm _ _ ht hu hle hge
  have hmarked : t.explored = u.explored :=
    Bool.eq_iff_iff.2 ⟨hexplored hge, hexplored' hle⟩
  cases t
  cases u
  simp_all

/-- The tighter of two thresholds is no less than either. -/
theorem isLE_order_tighter (hrange : Value.IsLine range) (ht : range t.value)
    (hu : range u.value) :
    (t.order (t.tighter u)).isLE = true ∧ (u.order (t.tighter u)).isLE = true := by
  cases horder : t.order u with
  | gt =>
    have hnot : ¬(t.order u).isLE = true := by simp [horder]
    rw [isLE_order_iff hrange ht hu, not_and] at hnot
    have hback : u.value ≤ t.value := by
      rcases hrange.total hu ht with hle | hle
      · exact hle
      · by_contra hback
        exact hnot hle fun h => absurd h hback
    have hle : (u.order t).isLE = true := by
      refine (isLE_order_iff hrange hu ht).2 ⟨hback, fun hle _ => ?_⟩
      by_contra hopen
      exact hnot hle fun _ hmarked => absurd hmarked hopen
    simp only [tighter, horder]
    exact ⟨isLE_order_refl hrange ht, hle⟩
  | lt =>
    simp only [tighter, horder]
    exact ⟨rfl, isLE_order_refl hrange hu⟩
  | eq =>
    simp only [tighter, horder]
    exact ⟨rfl, isLE_order_refl hrange hu⟩

/-- **What a threshold turns away is what it is no less than, once explored.** -/
theorem admits_eq_false_iff (hrange : Value.IsLine range) {v : V} (ht : range t.value)
    (hv : range v) : t.admits v = false ↔ ((Threshold.mk v true).order t).isLE = true := by
  have hlt := hrange.lt_iff _ _ ht hv
  have hbeq := hrange.beq_iff _ _ hv ht
  rw [isLE_order_iff hrange hv ht, admits, Bool.or_eq_false_iff, decide_eq_false_iff_not, hlt,
    not_not, Bool.and_eq_false_imp, hbeq, Bool.not_eq_false']
  refine and_congr_right fun hle => ⟨fun h hback _ => ?_, fun h heq => ?_⟩
  · exact h (hrange.antisymm _ _ hv ht hle hback)
  · exact h (heq ▸ hrange.refl _ hv) rfl

/-- The greatest threshold of a list, if there is one in it. -/
def Tightest (ts : List (Threshold V)) : Option (Threshold V) → Prop
  | none => ts = []
  | some t => t ∈ ts ∧ ∀ u ∈ ts, (u.order t).isLE = true

/-- **One more threshold**: the tighter one is kept. -/
theorem Tightest.cons (hrange : Value.IsLine range) {ts : List (Threshold V)}
    {known : Option (Threshold V)} (hts : ∀ u ∈ ts, range u.value) (ht : range t.value)
    (h : Tightest ts known) : Tightest (t :: ts) (some (known.elim t t.tighter)) := by
  cases known with
  | none =>
    have hnil : ts = [] := h
    refine ⟨List.mem_cons_self, fun u hu => ?_⟩
    rw [hnil, List.mem_singleton] at hu
    rw [hu]
    exact isLE_order_refl hrange ht
  | some k =>
    obtain ⟨hk, hgreatest⟩ := h
    obtain ⟨hleft, hright⟩ := isLE_order_tighter hrange ht (hts k hk)
    have hmem : t.tighter k ∈ t :: ts := by
      rcases t.tighter_eq_or k with heq | heq
      · rw [heq]
        exact List.mem_cons_self
      · rw [heq]
        exact List.mem_cons_of_mem t hk
    have hrange' : range (t.tighter k).value := by
      rcases List.mem_cons.1 hmem with heq | hmem'
      · rw [heq]
        exact ht
      · exact hts _ hmem'
    refine ⟨hmem, fun u hu => ?_⟩
    rcases List.mem_cons.1 hu with rfl | hu
    · exact hleft
    · exact isLE_order_trans hrange (hts u hu) (hts k hk) hrange' (hgreatest u hu) hright

/-- There is one greatest threshold, whatever the order of the list. -/
theorem Tightest.unique (hrange : Value.IsLine range) {ts us : List (Threshold V)}
    {known known' : Option (Threshold V)} (hts : ∀ u ∈ ts, range u.value)
    (hsame : ∀ t, t ∈ ts ↔ t ∈ us) (h : Tightest ts known) (h' : Tightest us known') :
    known = known' := by
  cases known with
  | none =>
    have hnil : ts = [] := h
    cases known' with
    | none => rfl
    | some t => exact absurd ((hsame t).2 h'.1) (by simp [hnil])
  | some t =>
    cases known' with
    | none =>
      have hnil : us = [] := h'
      exact absurd ((hsame t).1 h.1) (by simp [hnil])
    | some u =>
      have hu := (hsame u).2 h'.1
      exact congrArg some (isLE_order_antisymm hrange (hts t h.1) (hts u hu)
        (h'.2 t ((hsame t).1 h.1)) (h.2 u hu))

end Threshold

/-! ### Commands -/

namespace Cache

/-- What may be asked of a cache. -/
inductive Command (σ V : Type) where
  /-- Make room for a problem with so many variables. -/
  | prepare (n : Nat)
  | update (state : σ) (depth : Nat) (t : Threshold V)
  | forget (depth : Nat)
  | clear

namespace Command

/-- Whether a command empties the layer of a depth. -/
def empties (depth : Nat) : Command σ V → Bool
  | prepare _ => true
  | update _ _ _ => false
  | forget k => k == depth
  | clear => true

/-- The number of variables that room was last made for. -/
def prepared (commands : List (Command σ V)) : Option Nat :=
  commands.reverse.findSome? fun
    | prepare n => some n
    | _ => none

/-- Whether there is a layer for a depth. -/
def HasLayer (commands : List (Command σ V)) (depth : Nat) : Prop :=
  ∃ n, prepared commands = some n ∧ depth ≤ n

variable [BEq σ]

/-- What a command tells of a state at a depth. -/
def lesson? (state : σ) (depth : Nat) : Command σ V → Option (Threshold V)
  | update s k t => if s == state && k == depth then some t else none
  | _ => none

/-- The thresholds told of a state since the layer of its depth was last emptied, the latest
first. -/
def told (commands : List (Command σ V)) (state : σ) (depth : Nat) : List (Threshold V) :=
  (commands.reverse.takeWhile fun c => !c.empties depth).filterMap (lesson? state depth)

/-- Obeys one command. -/
def run (c : Cache σ V) : Command σ V → Cache σ V
  | prepare n => .ofSize n
  | update state depth t => c.update state depth t
  | forget depth => c.forget depth
  | clear => c.clear

omit [BEq σ] in
/-- The values that are told are in range. -/
def InRange (range : V → Prop) (commands : List (Command σ V)) : Prop :=
  ∀ state depth t, update state depth t ∈ commands → range t.value

variable {commands more : List (Command σ V)} {command : Command σ V} {state : σ} {depth : Nat}

omit [Value V] in
theorem told_concat : told (commands ++ [command]) state depth =
    if command.empties depth then []
    else (lesson? state depth command).toList ++ told commands state depth := by
  rw [told, List.reverse_concat, List.takeWhile_cons, told]
  cases command.empties depth with
  | true => rfl
  | false =>
    simp only [Bool.not_false, if_true, List.filterMap_cons]
    cases lesson? state depth command <;> rfl

omit [Value V] in
theorem told_of_empties (h : command.empties depth = true) :
    told (commands ++ [command]) state depth = [] := by
  rw [told_concat, if_pos h]

omit [Value V] in
theorem exists_of_mem_told {t : Threshold V} (h : t ∈ told commands state depth) :
    ∃ s, update s depth t ∈ commands := by
  obtain ⟨c, hc, hlesson⟩ := List.mem_filterMap.1 h
  have hmem := List.mem_reverse.1 ((List.takeWhile_prefix _).subset hc)
  cases c with
  | update s k u =>
    rw [lesson?] at hlesson
    split at hlesson
    · rename_i hplace
      obtain rfl := Option.some.inj hlesson
      exact ⟨s, eq_of_beq (Bool.and_eq_true_iff.1 hplace).2 ▸ hmem⟩
    · cases hlesson
  | prepare n => cases hlesson
  | forget k => cases hlesson
  | clear => cases hlesson

omit [Value V] in
theorem InRange.told (h : InRange range commands) {t : Threshold V}
    (ht : t ∈ told commands state depth) : range t.value := by
  obtain ⟨s, hs⟩ := exists_of_mem_told ht
  exact h s depth t hs

omit [Value V] in
/-- What does not empty a layer leaves all that was told of it. -/
theorem told_append (hmore : ∀ c ∈ more, c.empties depth = false) :
    told (commands ++ more) state depth =
      told more state depth ++ told commands state depth := by
  have hall : ∀ c ∈ more.reverse, (!c.empties depth) = true := by
    intro c hc
    rw [hmore c (List.mem_reverse.1 hc)]
    rfl
  have hwhole : more.reverse.takeWhile (fun c => !c.empties depth) = more.reverse :=
    List.takeWhile_eq_self_iff.2 hall
  rw [told, told, told, List.reverse_append, List.takeWhile_append_of_pos hall, hwhole,
    List.filterMap_append]

omit [BEq σ] [Value V] in
theorem prepared_append (hmore : ∀ c ∈ more, c.empties depth = false) :
    prepared (commands ++ more) = prepared commands := by
  have hnone : more.reverse.findSome? (fun | prepare n => some n | _ => none) = none := by
    rw [List.findSome?_eq_none_iff]
    intro c hc
    cases c with
    | prepare n => exact absurd (hmore _ (List.mem_reverse.1 hc)) (by simp [empties])
    | update s k t => rfl
    | forget k => rfl
    | clear => rfl
  rw [prepared, List.reverse_append, List.findSome?_append, hnone, Option.none_or]
  rfl

end Command

/-! ### What a cache remembers -/

section Records

open Command

variable [BEq σ] {c : Cache σ V} {commands more : List (Command σ V)} {command : Command σ V}
  {state other : σ} {depth : Nat} {t : Threshold V}

/-- Obeys commands, one after the other. -/
def obey (c : Cache σ V) (commands : List (Command σ V)) : Cache σ V :=
  commands.foldl Command.run c

omit [Value V] in
/-- Equal states have the same threshold. -/
theorem get?_congr [PartialEquivBEq σ] (h : state == other) :
    c.get? state depth = c.get? other depth := by
  unfold get?
  exact congrArg _ (funext fun layer => layer.get?_congr h)

omit [Value V] in
theorem get?_of_size_le (h : c.layers.size ≤ depth) : c.get? state depth = none := by
  rw [get?, Array.getElem?_eq_none h, Option.bind_none]

omit [Value V] in
theorem get?_ofSize_none (n : Nat) : (ofSize n : Cache σ V).get? state depth = none := by
  unfold get? ofSize
  rw [Array.getElem?_replicate]
  split <;> simp

/-- A state of the layer that is told has the tighter threshold. -/
theorem get?_update_self [EquivBEq σ] (h : depth < c.layers.size) :
    (c.update state depth t).get? other depth =
      if other == state then some ((c.get? other depth).elim t t.tighter)
      else c.get? other depth := by
  have hlayer := Array.getElem?_eq_getElem h
  rw [update, get?, get?, Array.getElem?_modify, if_pos rfl, hlayer, Option.map_some,
    Option.bind_some, Option.bind_some, Register.get?_put]
  cases hsame : other == state with
  | true =>
    rw [if_pos rfl, if_pos rfl, Register.get?_congr _ hsame]
    cases c.layers[depth].get? state <;> rfl
  | false => rfl

omit [Value V] in
theorem get?_forget_eq {k : Nat} :
    (c.forget depth).get? state k = if k = depth then none else c.get? state k := by
  simp only [forget, get?, Array.getElem?_modify]
  by_cases hk : k = depth
  · rw [if_pos hk.symm, if_pos hk]
    cases c.layers[k]? <;> simp
  · rw [if_neg (Ne.symm hk), if_neg hk]

omit [Value V] in
theorem get?_clear : c.clear.get? state depth = none := by
  rw [clear, get?, Array.getElem?_map]
  cases c.layers[depth]? <;> simp

/-- What a cache remembers of the commands that it obeyed. -/
structure Records (commands : List (Command σ V)) (c : Cache σ V) : Prop where
  size : c.layers.size = ((prepared commands).map (· + 1)).getD 0
  tightest : ∀ state depth, depth < c.layers.size →
    Threshold.Tightest (told commands state depth) (c.get? state depth)

omit [BEq σ] [Value V] in
theorem lt_size_iff (h : c.layers.size = ((prepared commands).map (· + 1)).getD 0) :
    depth < c.layers.size ↔ HasLayer commands depth := by
  rw [h, HasLayer]
  cases prepared commands with
  | none => simp
  | some n =>
    rw [Option.map_some, Option.getD_some, Nat.lt_succ_iff]
    exact ⟨fun hle => ⟨n, rfl, hle⟩, fun ⟨m, hm, hle⟩ => Option.some.inj hm ▸ hle⟩

omit [BEq σ] [Value V] in
theorem prepared_concat (h : ∀ n, command ≠ .prepare n) :
    prepared (commands ++ [command]) = prepared commands := by
  rw [prepared, List.reverse_concat, List.findSome?_cons]
  cases command with
  | prepare n => exact absurd rfl (h n)
  | update s k t => rfl
  | forget k => rfl
  | clear => rfl

/-- Only preparing changes the number of layers. -/
theorem Records.size_run (h : Records commands c) (command : Command σ V) :
    (Command.run c command).layers.size =
      ((prepared (commands ++ [command])).map (· + 1)).getD 0 := by
  have hkept (hother : ∀ n, command ≠ .prepare n) :
      c.layers.size = ((prepared (commands ++ [command])).map (· + 1)).getD 0 := by
    rw [prepared_concat hother, h.size]
  cases command with
  | prepare n =>
    rw [prepared, List.reverse_concat]
    simp [Command.run, ofSize]
  | update s k t => exact size_layers_update.trans (hkept fun _ => nofun)
  | forget k => exact size_layers_forget.trans (hkept fun _ => nofun)
  | clear => exact Array.size_map.trans (hkept fun _ => nofun)

/-- **One more command.** -/
theorem Records.run [EquivBEq σ] (hrange : Value.IsLine range)
    (hvalues : Command.InRange range (commands ++ [command])) (h : Records commands c) :
    Records (commands ++ [command]) (Command.run c command) := by
  have hbefore : Command.InRange range commands := fun s k t hmem =>
    hvalues s k t (List.mem_append_left _ hmem)
  refine ⟨h.size_run command, fun state depth hdepth => ?_⟩
  cases command with
  | prepare n =>
    rw [told_of_empties rfl, Command.run, get?_ofSize_none]
    rfl
  | clear =>
    rw [told_of_empties rfl, Command.run, get?_clear]
    rfl
  | forget k =>
    rw [Command.run, size_layers_forget] at hdepth
    rw [Command.run, get?_forget_eq]
    by_cases hk : depth = k
    · have hempties : (Command.forget k : Command σ V).empties depth = true :=
        beq_iff_eq.2 hk.symm
      rw [told_of_empties hempties, if_pos hk]
      rfl
    · rw [told_concat, if_neg hk, if_neg (by simpa [Command.empties] using Ne.symm hk)]
      exact h.tightest state depth hdepth
  | update s k t =>
    rw [Command.run, size_layers_update] at hdepth
    have htightest := h.tightest state depth hdepth
    rw [told_concat, if_neg (by simp [Command.empties]), Command.run]
    by_cases hk : depth = k
    · subst hk
      rw [get?_update_self hdepth, lesson?, beq_self_eq_true, Bool.and_true, BEq.comm]
      split
      · exact htightest.cons hrange (fun u hu => hbefore.told hu)
          (hvalues s depth t (List.mem_append_right _ (List.mem_singleton_self _)))
      · exact htightest
    · rw [get?_update_of_ne hk, lesson?, beq_false_of_ne (Ne.symm hk), Bool.and_false]
      exact htightest

/-- **Any commands**: what a cache remembers from the start on. -/
theorem obey_records [EquivBEq σ] (hrange : Value.IsLine range)
    (hvalues : Command.InRange range commands) :
    Records commands ((off : Cache σ V).obey commands) := by
  induction commands using List.reverseRecOn with
  | nil => exact ⟨rfl, fun _ _ h => absurd h (Nat.not_lt_zero _)⟩
  | append_singleton commands command ih =>
    rw [obey, List.foldl_append]
    exact (ih fun s k t hmem => hvalues s k t (List.mem_append_left _ hmem)).run hrange hvalues

section Obey

variable [EquivBEq σ] (hrange : Value.IsLine range) (hvalues : Command.InRange range commands)
include hrange hvalues

theorem get?_obey_tightest (hlayer : HasLayer commands depth) :
    Threshold.Tightest (told commands state depth) ((off.obey commands).get? state depth) :=
  have hrecords := obey_records hrange hvalues
  hrecords.tightest state depth ((lt_size_iff hrecords.size).2 hlayer)

theorem get?_obey_of_not_hasLayer (hlayer : ¬HasLayer commands depth) :
    (off.obey commands).get? state depth = none :=
  have hrecords := obey_records hrange hvalues
  get?_of_size_le (Nat.le_of_not_lt (mt (lt_size_iff hrecords.size).1 hlayer))

/-- **What is held is the greatest of what was told.** -/
theorem greatest_of_get?_obey (h : (off.obey commands).get? state depth = some t) :
    HasLayer commands depth ∧ t ∈ told commands state depth ∧
      ∀ u ∈ told commands state depth, (u.order t).isLE = true := by
  by_cases hlayer : HasLayer commands depth
  · have htightest : Threshold.Tightest (told commands state depth) (some t) :=
      h ▸ get?_obey_tightest hrange hvalues hlayer
    exact ⟨hlayer, htightest⟩
  · rw [get?_obey_of_not_hasLayer hrange hvalues hlayer] at h
    cases h

theorem get?_obey_eq_none_iff : (off.obey commands).get? state depth = none ↔
    ¬HasLayer commands depth ∨ told commands state depth = [] := by
  constructor
  · intro h
    by_cases hlayer : HasLayer commands depth
    · have htightest : Threshold.Tightest (told commands state depth) none :=
        h ▸ get?_obey_tightest hrange hvalues hlayer
      exact .inr htightest
    · exact .inl hlayer
  · rintro (hlayer | hnil)
    · exact get?_obey_of_not_hasLayer hrange hvalues hlayer
    · cases hget : (off.obey commands).get? state depth with
      | none => rfl
      | some t =>
        obtain ⟨_, hmem, _⟩ := greatest_of_get?_obey hrange hvalues hget
        rw [hnil] at hmem
        cases hmem

/-- **What is held only grows** until the layer is emptied. -/
theorem get?_obey_append (hall : Command.InRange range (commands ++ more))
    (hkeep : ∀ c ∈ more, c.empties depth = false)
    (ht : (off.obey commands).get? state depth = some t) :
    ∃ u, (off.obey (commands ++ more)).get? state depth = some u ∧ range u.value ∧
      range t.value ∧ (t.order u).isLE = true := by
  obtain ⟨hlayer, htold, _⟩ := greatest_of_get?_obey hrange hvalues ht
  -- What was held is still among what was told.
  have hstill : t ∈ told (commands ++ more) state depth := by
    rw [told_append hkeep]
    exact List.mem_append_right _ htold
  have hheld : (off.obey (commands ++ more)).get? state depth ≠ none := by
    rw [Ne, get?_obey_eq_none_iff hrange hall, HasLayer, prepared_append hkeep]
    rintro (hnone | hnil)
    · exact hnone hlayer
    · exact List.ne_nil_of_mem hstill hnil
  obtain ⟨u, hu⟩ := Option.ne_none_iff_exists'.1 hheld
  obtain ⟨_, hutold, hgreatest⟩ := greatest_of_get?_obey hrange hall hu
  exact ⟨u, hu, hall.told hutold, hall.told hstill, hgreatest t hstill⟩

/-- **What was turned away once stays so** until the layer is emptied. -/
theorem admits_obey_append (hmore : Command.InRange range more) {s s' : Subproblem σ V}
    (hs : range s.value) (hs' : range s'.value) (hkeep : ∀ c ∈ more, c.empties s.depth = false)
    (hbarred : (off.obey commands).admits s = false) (hstate : (s'.state == s.state) = true)
    (hdepth : s'.depth = s.depth) (hle : s'.value ≤ s.value) :
    (off.obey (commands ++ more)).admits s' = false := by
  have hall : Command.InRange range (commands ++ more) := by
    intro state depth t hmem
    rcases List.mem_append.1 hmem with hmem | hmem
    · exact hvalues state depth t hmem
    · exact hmore state depth t hmem
  unfold admits at hbarred
  cases ht : (off.obey commands).get? s.state s.depth with
  | none =>
    rw [ht] at hbarred
    cases hbarred
  | some t =>
    rw [ht] at hbarred
    obtain ⟨u, hu, hurange, htrange, hgrown⟩ := get?_obey_append hrange hvalues hall hkeep ht
    have hbelow := (Threshold.admits_eq_false_iff hrange htrange hs).1 hbarred
    have hsmaller : ((Threshold.mk s'.value true).order ⟨s.value, true⟩).isLE = true :=
      (Threshold.isLE_order_iff hrange hs' hs).2 ⟨hle, fun _ h => h⟩
    have hchain : ((Threshold.mk s'.value true).order u).isLE = true :=
      Threshold.isLE_order_trans hrange hs' hs hurange hsmaller
        (Threshold.isLE_order_trans hrange hs htrange hurange hbelow hgrown)
    unfold admits
    rw [hdepth, get?_congr hstate, hu]
    exact (Threshold.admits_eq_false_iff hrange hurange hs').2 hchain

end Obey

/-- **A cache only tightens.**  After any commands it holds no threshold of a state at a depth
if and only if there is no layer for the depth or none was told since the layer was last
emptied; else it holds the greatest of those that were told, by value first and by whether
it was explored next.  So what it holds depends on what was told and not on the order.  And
until the layer is emptied again, what the cache turned away once it turns away whatever it
is told, and with it all that has the same state and depth and no greater value. -/
theorem obey_tightens [EquivBEq σ] (hrange : Value.IsLine range)
    (commands : List (Command σ V)) (hvalues : Command.InRange range commands) :
    (∀ state depth,
      ((off.obey commands).get? state depth = none ↔
        ¬HasLayer commands depth ∨ told commands state depth = []) ∧
      ∀ t, (off.obey commands).get? state depth = some t →
        t ∈ told commands state depth ∧
          ∀ u ∈ told commands state depth, (u.order t).isLE = true) ∧
    (∀ others : List (Command σ V), Command.InRange range others → ∀ state depth,
      (HasLayer others depth ↔ HasLayer commands depth) →
      (∀ t, t ∈ told others state depth ↔ t ∈ told commands state depth) →
        (off.obey others).get? state depth = (off.obey commands).get? state depth) ∧
    ∀ more : List (Command σ V), Command.InRange range more → ∀ s s' : Subproblem σ V,
      range s.value → range s'.value → (∀ c ∈ more, c.empties s.depth = false) →
      (off.obey commands).admits s = false → (s'.state == s.state) = true →
      s'.depth = s.depth → s'.value ≤ s.value →
        (off.obey (commands ++ more)).admits s' = false := by
  refine ⟨fun state depth => ⟨get?_obey_eq_none_iff hrange hvalues, fun t ht =>
    (greatest_of_get?_obey hrange hvalues ht).2⟩, ?_, ?_⟩
  · intro others hothers state depth hlayers hsame
    by_cases hlayer : HasLayer commands depth
    · exact (get?_obey_tightest hrange hothers (hlayers.2 hlayer)).unique hrange
        (fun u hu => hothers.told hu) hsame (get?_obey_tightest hrange hvalues hlayer)
    · rw [get?_obey_of_not_hasLayer hrange hvalues hlayer,
        get?_obey_of_not_hasLayer hrange hothers (mt hlayers.1 hlayer)]
  · intro more hmore s s' hs hs' hkeep hbarred hstate hdepth hle
    exact admits_obey_append hrange hvalues hmore hs hs' hkeep hbarred hstate hdepth hle

/-- A cache is told an explored value, then a greater one that was not explored, then one
that is less than both. -/
def lessons : List (Command Nat Extended) :=
  [.update 7 2 ⟨.finite 9, true⟩, .prepare 3, .update 7 2 ⟨.finite 5, true⟩,
    .update 7 2 ⟨.finite 6, false⟩, .forget 1, .update 7 2 ⟨.finite 4, true⟩]

theorem obey_tightens_lessons :
    (off.obey lessons).get? 7 2 = some ⟨.finite 6, false⟩ ∧
      (off.obey lessons).get? 7 4 = none ∧
      (off.obey lessons).admits ⟨7, .finite 5, [], .posInf, 2⟩ = false ∧
      (off.obey (lessons ++ [.update 7 2 ⟨.finite 6, true⟩])).admits
        ⟨7, .finite 3, [], .posInf, 2⟩ = false := by
  obtain ⟨hholds, _, hbars⟩ := obey_tightens Extended.isLine lessons fun _ _ _ _ => trivial
  have hbarred : (off.obey lessons).admits ⟨7, .finite 5, [], .posInf, 2⟩ = false := by rfl
  refine ⟨by rfl, (hholds 7 4).1.2 (.inl ?_), hbarred, ?_⟩
  · rintro ⟨n, hn, hle⟩
    obtain rfl : 3 = n := Option.some.inj hn
    omega
  · refine hbars [.update 7 2 ⟨.finite 6, true⟩] (fun _ _ _ _ => trivial)
      ⟨7, .finite 5, [], .posInf, 2⟩ ⟨7, .finite 3, [], .posInf, 2⟩ trivial trivial ?_ hbarred
      (by rfl) rfl (by decide)
    intro c hc
    obtain rfl := List.mem_singleton.1 hc
    rfl

end Records
end Cache
end DiagramSearch
