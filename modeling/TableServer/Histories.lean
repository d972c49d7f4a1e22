import Mathlib.Logic.Function.Basic
import Mathlib.Data.List.Induction

/-!
A store with pending changes, told in two ways. As a history of changes: a key has the
value of the last set that no later rollback undoes. As an overlay: a committed layer
and a pending one over it, which a commit merges and a rollback drops.
-/

namespace Histories

variable {Key Value : Type}

inductive Change (Key Value : Type) where
  | set (key : Key) (value : Value)
  | commit
  | rollback
  deriving DecidableEq

/-- A rollback at `j` undoes the change at `i`: since `i` there are only sets before it. -/
def Undoes (h : List (Change Key Value)) (j i : Nat) : Prop :=
  i < j ∧ h[j]? = some .rollback ∧ ∀ m, i < m → m < j → ∃ k v, h[m]? = some (.set k v)

/-- The change at `i` sets the key to the value, and no later rollback undoes it. -/
def Stands (h : List (Change Key Value)) (k : Key) (i : Nat) (v : Value) : Prop :=
  h[i]? = some (.set k v) ∧ ∀ j, ¬ Undoes h j i

/-- After the change at `i` there are only sets: a rollback now would undo it. -/
def Open (h : List (Change Key Value)) (i : Nat) : Prop :=
  ∀ m, i < m → m < h.length → ∃ k v, h[m]? = some (.set k v)

/-- Sets that stand and that a rollback would still undo. -/
def Loose (h : List (Change Key Value)) (k : Key) (i : Nat) (v : Value) : Prop := Stands h k i v ∧ Open h i

/-- Sets that stand whatever follows. -/
def Fixed (h : List (Change Key Value)) (k : Key) (i : Nat) (v : Value) : Prop := Stands h k i v ∧ ¬ Open h i

/-- The value of the last of some sets, or none where there are none. -/
def Shows (o : Option Value) (P : Nat → Value → Prop) : Prop :=
  match o with
  | none => ∀ i v, ¬ P i v
  | some v => ∃ i, P i v ∧ ∀ j w, P j w → j ≤ i

private theorem Shows.congr {o : Option Value} {P Q : Nat → Value → Prop} (shown : Shows o P)
    (same : ∀ i v, P i v ↔ Q i v) : Shows o Q := by
  have equal : P = Q := by
    funext i v
    exact propext (same i v)
  exact equal ▸ shown

/-- Where sets of the second kind come before those of the first, the first kind shows. -/
theorem Shows.or {a b : Option Value} {P Q : Nat → Value → Prop} (first : Shows a P) (second : Shows b Q)
    (before : ∀ i v j w, P i v → Q j w → j ≤ i) : Shows (a.or b) (fun i v => P i v ∨ Q i v) := by
  cases a with
  | none =>
    rw [Option.none_or]
    exact second.congr (fun i v => ⟨.inr, fun either => either.resolve_left (first i v)⟩)
  | some v =>
    obtain ⟨i, here, last⟩ := first
    refine ⟨i, .inl here, ?_⟩
    rintro j w (there | there)
    · exact last j w there
    · exact before i v j w here there

/-- A set after all the others shows. -/
theorem Shows.snoc {o : Option Value} {P : Nat → Value → Prop} (shown : Shows o P) {n : Nat}
    (early : ∀ i v, P i v → i < n) (new : Option Value) :
    Shows (new.or o) (fun i v => P i v ∨ (i = n ∧ new = some v)) := by
  have added : Shows new (fun i v => i = n ∧ new = some v) := by
    cases new with
    | none => rintro i v ⟨-, impossible⟩; cases impossible
    | some v => exact ⟨n, ⟨rfl, rfl⟩, fun j w there => Nat.le_of_eq there.1⟩
  have either := added.or shown (fun i v j w here there => by have := early j w there; omega)
  exact either.congr (fun i v => or_comm)

private theorem set_inside {h : List (Change Key Value)} {k : Key} {i : Nat} {v : Value}
    (here : h[i]? = some (.set k v)) : i < h.length := (List.getElem?_eq_some_iff.mp here).1

private theorem at_snoc (h : List (Change Key Value)) (c x : Change Key Value) (i : Nat) :
    (h ++ [c])[i]? = some x ↔ h[i]? = some x ∨ (i = h.length ∧ c = x) := by
  rcases Nat.lt_trichotomy i h.length with inside | last | beyond
  · rw [List.getElem?_append_left inside]
    constructor
    · exact .inl
    · rintro (here | ⟨there, -⟩)
      · exact here
      · omega
  · subst last
    simp
  · have outside : h[i]? = none := List.getElem?_eq_none (by omega)
    rw [outside, List.getElem?_eq_none (by simp; omega)]
    constructor
    · intro impossible; cases impossible
    · rintro (impossible | ⟨there, -⟩)
      · cases impossible
      · omega

private theorem open_snoc {h : List (Change Key Value)} (c : Change Key Value) {i : Nat} (inside : i < h.length) :
    Open (h ++ [c]) i ↔ Open h i ∧ ∃ k v, c = .set k v := by
  constructor
  · intro opened
    constructor
    · intro m after within
      obtain ⟨k, v, here⟩ := opened m after (by simp; omega)
      rw [List.getElem?_append_left within] at here
      exact ⟨k, v, here⟩
    · obtain ⟨k, v, here⟩ := opened h.length inside (by simp)
      exact ⟨k, v, by simpa using here⟩
  · rintro ⟨opened, k, v, rfl⟩ m after within
    rw [List.length_append, List.length_singleton] at within
    by_cases last : m = h.length
    · exact ⟨k, v, (at_snoc h _ _ m).mpr (.inr ⟨last, rfl⟩)⟩
    · obtain ⟨k', v', here⟩ := opened m after (by omega)
      exact ⟨k', v', (at_snoc h _ _ m).mpr (.inl here)⟩

private theorem undoes_snoc {h : List (Change Key Value)} (c : Change Key Value) (j i : Nat) :
    Undoes (h ++ [c]) j i ↔ Undoes h j i ∨ (j = h.length ∧ i < j ∧ c = .rollback ∧ Open h i) := by
  have below {m : Nat} (within : m < h.length) : (h ++ [c])[m]? = h[m]? := List.getElem?_append_left within
  unfold Undoes
  rw [at_snoc]
  constructor
  · rintro ⟨after, here | ⟨last, rolled⟩, between⟩
    · have within : j < h.length := (List.getElem?_eq_some_iff.mp here).1
      exact .inl ⟨after, here, fun m lower upper => by
        obtain ⟨k, v, there⟩ := between m lower upper
        exact ⟨k, v, below (by omega : m < h.length) ▸ there⟩⟩
    · exact .inr ⟨last, after, rolled, fun m lower upper => by
        obtain ⟨k, v, there⟩ := between m lower (by omega)
        exact ⟨k, v, below upper ▸ there⟩⟩
  · rintro (⟨after, here, between⟩ | ⟨last, after, rolled, opened⟩)
    · have within : j < h.length := (List.getElem?_eq_some_iff.mp here).1
      exact ⟨after, .inl here, fun m lower upper => by
        rw [below (by omega)]
        exact between m lower upper⟩
    · exact ⟨after, .inr ⟨last, rolled⟩, fun m lower upper => by
        rw [below (by omega)]
        exact opened m lower (by omega)⟩

/-- The set that was just made stands; the others stand unless this is a rollback that undoes them. -/
theorem stands_snoc (h : List (Change Key Value)) (c : Change Key Value) (k : Key) (i : Nat) (v : Value) :
    Stands (h ++ [c]) k i v ↔
      (Stands h k i v ∧ ¬ (c = .rollback ∧ Open h i)) ∨ (i = h.length ∧ c = .set k v) := by
  unfold Stands
  rw [at_snoc]
  simp only [undoes_snoc, not_or]
  constructor
  · rintro ⟨here | last, kept⟩
    · have inside := set_inside here
      exact .inl ⟨⟨here, fun j => (kept j).1⟩, fun ⟨rolled, opened⟩ =>
        (kept h.length).2 ⟨rfl, inside, rolled, opened⟩⟩
    · exact .inr last
  · rintro (⟨⟨here, kept⟩, safe⟩ | last)
    · exact ⟨.inl here, fun j => ⟨kept j, fun ⟨_, _, rolled, opened⟩ => safe ⟨rolled, opened⟩⟩⟩
    · refine ⟨.inr last, fun j => ⟨?_, ?_⟩⟩
      · rintro ⟨after, there, -⟩
        have within : j < h.length := (List.getElem?_eq_some_iff.mp there).1
        omega
      · rintro ⟨there, after, -⟩
        omega

private theorem Stands.inside {h : List (Change Key Value)} {k : Key} {i : Nat} {v : Value} (stands : Stands h k i v) :
    i < h.length := set_inside stands.1

private theorem open_last (h : List (Change Key Value)) (c : Change Key Value) : Open (h ++ [c]) h.length := by
  intro m after within
  rw [List.length_append, List.length_singleton] at within
  omega

/-- A loose set comes after a fixed one. -/
theorem fixed_before {h : List (Change Key Value)} {k : Key} {i j : Nat} {v w : Value} (loose : Loose h k i v)
    (fixed : Fixed h k j w) : j ≤ i := by
  by_contra later
  exact fixed.2 (fun m after within => loose.2 m (by omega) within)

/-- The committed layer and the pending one. -/
structure Layers (Key Value : Type) where
  committed : Key → Option Value
  pending : Key → Option Value

namespace Layers

def empty : Layers Key Value := ⟨fun _ => none, fun _ => none⟩

/-- What a key has: the pending value where there is one, else the committed one. -/
def read (l : Layers Key Value) (k : Key) : Option Value := (l.pending k).or (l.committed k)

/-- The pending layer shows the loose sets and the committed one the fixed ones. -/
structure Tells (l : Layers Key Value) (h : List (Change Key Value)) : Prop where
  loose (k : Key) : Shows (l.pending k) (Loose h k)
  fixed (k : Key) : Shows (l.committed k) (Fixed h k)

private theorem Tells.read {l : Layers Key Value} {h : List (Change Key Value)} (tells : l.Tells h) (k : Key) :
    Shows (l.read k) (Stands h k) := by
  have either := (tells.loose k).or (tells.fixed k) (fun i v j w => fixed_before)
  exact either.congr (fun i v => by unfold Loose Fixed; tauto)

private theorem tells_empty : (empty : Layers Key Value).Tells [] :=
  ⟨fun k i v loose => by simpa using loose.1.inside, fun k i v fixed => by simpa using fixed.1.inside⟩

/-- After a commit or a rollback no set is loose. -/
theorem no_loose {h : List (Change Key Value)} {c : Change Key Value} (closing : ∀ k v, c ≠ .set k v) (k : Key)
    (i : Nat) (v : Value) : ¬ Loose (h ++ [c]) k i v := by
  rintro ⟨stands, opened⟩
  rcases (stands_snoc h c k i v).mp stands with ⟨before, -⟩ | ⟨-, impossible⟩
  · obtain ⟨-, k', v', same⟩ := (open_snoc c before.inside).mp opened
    exact closing k' v' same
  · exact closing k v impossible

/-- The sets that a commit or a rollback fixes. -/
theorem fixed_closing {h : List (Change Key Value)} {c : Change Key Value} (closing : ∀ k v, c ≠ .set k v) (k : Key)
    (i : Nat) (v : Value) : Fixed (h ++ [c]) k i v ↔ Stands h k i v ∧ ¬ (c = .rollback ∧ Open h i) := by
  have all : Fixed (h ++ [c]) k i v ↔ Stands (h ++ [c]) k i v :=
    ⟨And.left, fun stands => ⟨stands, fun opened => no_loose closing k i v ⟨stands, opened⟩⟩⟩
  rw [all, stands_snoc]
  constructor
  · rintro (before | ⟨-, impossible⟩)
    · exact before
    · exact absurd impossible (closing k v)
  · exact .inl

private theorem loose_set (h : List (Change Key Value)) (k' : Key) (v' : Value) (k : Key) (i : Nat) (v : Value) :
    Loose (h ++ [.set k' v']) k i v ↔ Loose h k i v ∨ (i = h.length ∧ k' = k ∧ v' = v) := by
  unfold Loose
  rw [stands_snoc]
  simp only [reduceCtorEq, false_and, not_false_eq_true, and_true, Change.set.injEq]
  constructor
  · rintro ⟨before | last, opened⟩
    · exact .inl ⟨before, ((open_snoc _ before.inside).mp opened).1⟩
    · exact .inr last
  · rintro (⟨before, opened⟩ | last)
    · exact ⟨.inl before, (open_snoc _ before.inside).mpr ⟨opened, k', v', rfl⟩⟩
    · exact ⟨.inr last, last.1 ▸ open_last h _⟩

private theorem fixed_set (h : List (Change Key Value)) (k' : Key) (v' : Value) (k : Key) (i : Nat) (v : Value) :
    Fixed (h ++ [.set k' v']) k i v ↔ Fixed h k i v := by
  unfold Fixed
  rw [stands_snoc]
  simp only [reduceCtorEq, false_and, not_false_eq_true, and_true]
  constructor
  · rintro ⟨before | ⟨last, -⟩, closed⟩
    · exact ⟨before, fun opened => closed ((open_snoc _ before.inside).mpr ⟨opened, k', v', rfl⟩)⟩
    · exact absurd (last ▸ open_last h _) closed
  · rintro ⟨before, closed⟩
    exact ⟨.inl before, fun opened => closed ((open_snoc _ before.inside).mp opened).1⟩

section
variable [DecidableEq Key]

def change (l : Layers Key Value) : Change Key Value → Layers Key Value
  | .set k v => ⟨l.committed, Function.update l.pending k (some v)⟩
  | .commit => ⟨l.read, fun _ => none⟩
  | .rollback => ⟨l.committed, fun _ => none⟩

def run (h : List (Change Key Value)) : Layers Key Value := h.foldl change empty

private theorem Tells.change {l : Layers Key Value} {h : List (Change Key Value)} (tells : l.Tells h)
    (c : Change Key Value) : (l.change c).Tells (h ++ [c]) := by
  cases c with
  | set k' v' =>
    constructor
    · intro k
      have newer := (tells.loose k).snoc (fun i v loose => loose.1.inside) (if k = k' then some v' else none)
      have value : (l.change (.set k' v')).pending k = (if k = k' then some v' else none).or (l.pending k) := by
        simp only [Layers.change, Function.update_apply]
        split
        · rfl
        · rfl
      rw [value]
      refine newer.congr (fun i v => ?_)
      rw [loose_set]
      by_cases same : k = k'
      · simp [same]
      · simp [same, Ne.symm same]
    · intro k
      exact (tells.fixed k).congr (fun i v => (fixed_set h k' v' k i v).symm)
  | commit =>
    have closing : ∀ k v, (.commit : Change Key Value) ≠ .set k v := fun k v impossible => by cases impossible
    constructor
    · exact no_loose closing
    · intro k
      exact (tells.read k).congr (fun i v => by rw [fixed_closing closing]; simp)
  | rollback =>
    have closing : ∀ k v, (.rollback : Change Key Value) ≠ .set k v := fun k v impossible => by cases impossible
    constructor
    · exact no_loose closing
    · intro k
      exact (tells.fixed k).congr (fun i v => by rw [fixed_closing closing]; simp [Fixed])

private theorem run_tells (h : List (Change Key Value)) : (run h).Tells h := by
  induction h using List.reverseRecOn with
  | nil => exact tells_empty
  | append_singleton h c ih =>
    rw [run, List.foldl_append]
    exact ih.change c

/-- The overlay reads every key as the history says. -/
theorem run_read (h : List (Change Key Value)) (k : Key) : Shows ((run h).read k) (Stands h k) := (run_tells h).read k

end
end Layers
end Histories
