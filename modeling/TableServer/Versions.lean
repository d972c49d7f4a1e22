import TableServer.Values
import TableServer.Histories

/-!
A table is a store with pending changes: its two maps are the layers of an overlay, and
so it answers as the history of its changes says. Reading an absent key is where it does
not: `get` inserts the empty string instead of throwing.
-/

namespace TableServer.Versions
open TableServer.Bytes TableServer.Messages TableServer.Stores TableServer.Values Histories

def change (t : Table) : Change Str Str → Table
  | .set key value => t.set key value
  | .commit => t.commit_changes
  | .rollback => t.rollback_changes

/-- The table after a history of changes. -/
def after (name : Str) (h : List (Change Str Str)) : Table := h.foldl change (Table.create name)

/-- The two maps of a table, as layers. -/
def layers (t : Table) : Layers Str Str := ⟨fun k => t.theMap[k]?, fun k => t.tempMap[k]?⟩

private theorem read_layers (t : Table) (k : Str) : (layers t).read k = t.overlay k := rfl

private theorem create_layers (name : Str) : layers (Table.create name) = Layers.empty := by
  simp [layers, Table.create, Layers.empty]

/-- The table makes each change as its layers do. -/
theorem change_layers (t : Table) (c : Change Str Str) : layers (change t c) = (layers t).change c := by
  cases c with
  | set key value =>
    have pending : (fun k => (t.tempMap.insert key value)[k]?) =
      Function.update (layers t).pending key (some value) := by
      funext k
      rw [getElem?_insert, Function.update_apply]
      simp only [eq_comm (a := k), layers]
    simp only [layers, change, Table.set, Layers.change, pending]
  | commit =>
    have committed : (fun k => t.commit_changes.theMap[k]?) = (layers t).read := by
      funext k
      rw [Table.commit_getElem?, read_layers, Table.overlay]
    simp [layers, change, Layers.change, committed]
  | rollback => simp [layers, change, Layers.change, Table.rollback_changes]

private theorem after_layers (name : Str) (h : List (Change Str Str)) : layers (after name h) = Layers.run h := by
  induction h using List.reverseRecOn with
  | nil => exact create_layers name
  | append_singleton h c ih =>
    rw [after, List.foldl_append] at *
    rw [Layers.run, List.foldl_append]
    exact (change_layers _ c).trans (congrArg (Layers.change · c) ih)

private theorem after_shows (name : Str) (h : List (Change Str Str)) (k : Str) :
    Shows ((after name h).overlay k) (Stands h k) := by
  rw [← read_layers, after_layers]
  exact Layers.run_read h k

private theorem has_key_overlay (t : Table) (k : Str) : t.has_key k = true ↔ ∃ v, t.overlay k = some v := by
  rw [has_key_iff, ← Table.overlay_none]
  exact Option.ne_none_iff_exists'

/-- Reading a key that the table has changes nothing. -/
theorem get_present {t : Table} {k v : Str} (present : t.overlay k = some v) : t.get k = .ok (v, t) := by
  have here : ¬ (t.tempMap[k]? = none ∧ t.theMap[k]? = none) := by
    rw [← Table.overlay_none, present]
    simp
  rw [Table.get_eq, Table.read_overlay, present, Table.touch, if_neg here]
  rfl

/-- A table answers as its history says, for every history and every key. -/
theorem table_refines_history (name : Str) (h : List (Change Str Str)) (k : Str) :
    ((after name h).has_key k = true ↔ ∃ i v, Stands h k i v) ∧
      ((after name h).has_key k = true → ∃ i v, Stands h k i v ∧ (∀ j w, Stands h k j w → j ≤ i) ∧
        (after name h).get k = .ok (v, after name h)) := by
  have shown := after_shows name h k
  rw [has_key_overlay]
  cases value : (after name h).overlay k with
  | none =>
    rw [value] at shown
    simp only [reduceCtorEq, exists_false, false_iff, false_implies, and_true]
    rintro ⟨i, v, stands⟩
    exact shown i v stands
  | some v =>
    rw [value] at shown
    obtain ⟨i, stands, last⟩ := shown
    exact ⟨⟨fun _ => ⟨i, v, stands⟩, fun _ => ⟨v, rfl⟩⟩, fun _ => ⟨i, v, stands, last, get_present value⟩⟩

/-- A call of a table's public function. -/
inductive Access where
  | set (key value : Str)
  | get (key : Str)
  | has_key (key : Str)
  | commit_changes
  | rollback_changes

/-- The table after a call; a call that throws has changed nothing. -/
def access (t : Table) : Access → Table
  | .set key value => t.set key value
  | .get key => match t.get key with
    | .ok (_, t') => t'
    | .error _ => t
  | .has_key _ => t
  | .commit_changes => t.commit_changes
  | .rollback_changes => t.rollback_changes

/-- What `get` answers: a value, or what it throws. -/
def answer (t : Table) (key : Str) : Except Exn Str := (t.get key).map Prod.fst

/-- `get` throws exactly where `has_key` is false, and changes no later answer of either. -/
def Agree (t : Table) (key : Str) : Prop :=
  ((∃ e, t.get key = .error e) ↔ t.has_key key = false) ∧
    ∀ j, (access t (.get key)).has_key j = t.has_key j ∧ answer (access t (.get key)) j = answer t j

private theorem access_get (t : Table) (key : Str) : access t (.get key) = t.touch key := by
  simp only [access, Table.get_eq]

/-- `get` and `has_key` agree exactly at the keys that are in one of the two maps. -/
theorem get_agrees_iff (name : Str) (calls : List Access) (key : Str) :
    Agree (calls.foldl access (Table.create name)) key ↔
      ((calls.foldl access (Table.create name)).theMap[key]? ≠ none ∨
        (calls.foldl access (Table.create name)).tempMap[key]? ≠ none) := by
  generalize calls.foldl access (Table.create name) = t
  have never : ¬ ∃ e, t.get key = .error e := by
    rintro ⟨e, thrown⟩
    rw [Table.get_eq] at thrown
    cases thrown
  constructor
  · rintro ⟨throws, -⟩
    by_contra absent
    simp only [not_or, not_not] at absent
    apply never
    rw [throws, ← Bool.not_eq_true, has_key_iff]
    exact fun there => there ⟨absent.2, absent.1⟩
  · intro present
    have here : ¬ (t.tempMap[key]? = none ∧ t.theMap[key]? = none) := by tauto
    have kept : access t (.get key) = t := by rw [access_get, Table.touch, if_neg here]
    refine ⟨⟨fun thrown => absurd thrown never, fun missing => ?_⟩, fun j => by rw [kept]; exact ⟨rfl, rfl⟩⟩
    exact absurd ((has_key_iff t key).mpr here) (by rw [missing]; decide)

/-- A new table answers `get` with the empty string, and then says that it has the key. -/
theorem get_inserts_absent :
    ¬ Agree (([] : List Access).foldl access (Table.create (lit "t"))) (lit "k") ∧
      answer (Table.create (lit "t")) (lit "k") = .ok [] ∧
      (Table.create (lit "t")).has_key (lit "k") = false ∧
      (access (Table.create (lit "t")) (.get (lit "k"))).has_key (lit "k") = true := by
  have answered : answer (Table.create (lit "t")) (lit "k") = .ok [] := by
    simp [answer, Table.get_eq, Table.read, Table.create, Table.committed, Except.map]
  have missing : (Table.create (lit "t")).has_key (lit "k") = false := by
    rw [← Bool.not_eq_true, has_key_iff]
    simp [Table.create]
  refine ⟨?_, answered, missing, ?_⟩
  · rintro ⟨throws, -⟩
    obtain ⟨e, thrown⟩ := throws.mpr missing
    simp [Table.get_eq] at thrown
  · rw [access_get, has_key_iff]
    simp [Table.touch, Table.create]

end TableServer.Versions
