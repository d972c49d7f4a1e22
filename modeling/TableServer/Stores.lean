import TableServer.Messages
import Mathlib.Data.List.Basic

/-!
The two stores of the server: a table, with its committed and its pending map and
its mutex, and a client's operand stack.
-/

namespace TableServer.Stores
open TableServer.Bytes TableServer.Messages

/-- The name of a connection (of its worker thread). -/
abbrev ConnId := Nat
/-- The address of a table. -/
abbrev Addr := Nat

/-- A `std::map` with string keys, in the order of its keys. -/
abbrev StdMap (Value : Type) := Std.ExtTreeMap Str Value compare

theorem getElem?_insert {Value : Type} (m : StdMap Value) (k k' : Str) (v : Value) :
    (m.insert k v)[k']? = if k = k' then some v else m[k']? := by
  rw [Std.ExtTreeMap.getElem?_insert]
  simp

/-- `map[key]`, which inserts the empty string under an absent key. -/
def subscript (m : StdMap Str) (key : Str) : Str × StdMap Str :=
  match m[key]? with
  | some value => (value, m)
  | none => ([], m.insert key [])

structure Table where
  m_name : Str
  theMap : StdMap Str
  tempMap : StdMap Str
  /-- The connection that has locked the mutex. -/
  m_mutex : Option ConnId

/-- The two maps of a table. -/
inductive Which where
  | theMap
  | tempMap
  deriving DecidableEq

/-- An iterator belongs to one map; at `end()` it has no key. -/
structure Iterator where
  owner : Which
  key : Option Str
  deriving DecidableEq

namespace Table

def create (name : Str) : Table := ⟨name, ∅, ∅, none⟩

def find (t : Table) (owner : Which) (key : Str) : Iterator :=
  let m := match owner with | .theMap => t.theMap | .tempMap => t.tempMap
  ⟨owner, m[key]?.map fun _ => key⟩

def finish (owner : Which) : Iterator := ⟨owner, none⟩

def set (t : Table) (key value : Str) : Table := { t with tempMap := t.tempMap.insert key value }

/-- The second comparison is with the end of the other map, as in the source. -/
def get (t : Table) (key : Str) : Except Exn (Str × Table) :=
  let doesKeyExist1 := t.find .theMap key
  let doesKeyExist2 := t.find .tempMap key
  if doesKeyExist1 = finish .theMap ∧ doesKeyExist2 = finish .theMap then
    .error (.runtime_error (lit "no key in table"))
  else if doesKeyExist2 = finish .tempMap then
    .ok ((subscript t.theMap key).1, { t with theMap := (subscript t.theMap key).2 })
  else
    .ok ((subscript t.tempMap key).1, { t with tempMap := (subscript t.tempMap key).2 })

def has_key (t : Table) (key : Str) : Bool :=
  !(t.find .theMap key = finish .theMap ∧ t.find .tempMap key = finish .tempMap)

/-- `(*theMap)[key] = value` for every pending pair, in the order of the keys. -/
def commit_changes (t : Table) : Table :=
  { t with
    theMap := t.tempMap.foldl (fun m key value => m.insert key value) t.theMap
    tempMap := ∅ }

def rollback_changes (t : Table) : Table := { t with tempMap := ∅ }

/-- What a key of the committed map reads as; an absent key reads as the empty string. -/
def committed (t : Table) (key : Str) : Str := t.theMap[key]?.getD []

/-- What a key reads as under the pending changes. -/
def read (t : Table) (key : Str) : Str := t.tempMap[key]?.getD (t.committed key)

theorem find_finish (t : Table) (owner : Which) (key : Str) : t.find owner key = finish owner ↔
    (match owner with | .theMap => t.theMap | .tempMap => t.tempMap)[key]? = none := by
  simp [find, finish]

/-- What reading a key leaves: the empty string under a key that neither map has. -/
def touch (t : Table) (key : Str) : Table :=
  if t.tempMap[key]? = none ∧ t.theMap[key]? = none then { t with theMap := t.theMap.insert key [] } else t

/-- Reading a key never throws, and the value is what the key reads as. -/
theorem get_eq (t : Table) (key : Str) : t.get key = .ok (t.read key, t.touch key) := by
  have apart : t.find .tempMap key ≠ finish .theMap := by simp [find, finish]
  unfold get
  simp only [apart, and_false, if_false, find_finish]
  cases pending : t.tempMap[key]? with
  | none =>
    cases stored : t.theMap[key]? with
    | none => simp [subscript, stored, read, committed, pending, touch]
    | some value => simp [subscript, stored, read, committed, pending, touch]
  | some value => simp [subscript, read, pending, touch]

@[simp] theorem touch_mutex (t : Table) (k : Str) : (t.touch k).m_mutex = t.m_mutex := by
  unfold touch; split <;> rfl

@[simp] theorem touch_temp (t : Table) (k : Str) : (t.touch k).tempMap = t.tempMap := by
  unfold touch; split <;> rfl

@[simp] theorem touch_committed (t : Table) (k : Str) : (t.touch k).committed = t.committed := by
  funext j
  unfold touch
  split
  · rename_i absent
    simp only [committed, getElem?_insert]
    split
    · rename_i same; subst same; simp [absent.2]
    · rfl
  · rfl

@[simp] theorem touch_read (t : Table) (k : Str) : (t.touch k).read = t.read := by
  funext j
  simp only [read, touch_temp, touch_committed]

@[simp] theorem create_temp (name : Str) : (create name).tempMap = ∅ := rfl
@[simp] theorem set_mutex (t : Table) (k v : Str) : (t.set k v).m_mutex = t.m_mutex := rfl
@[simp] theorem set_committed (t : Table) (k v : Str) : (t.set k v).committed = t.committed := rfl
@[simp] theorem commit_mutex (t : Table) : t.commit_changes.m_mutex = t.m_mutex := rfl
@[simp] theorem commit_temp (t : Table) : t.commit_changes.tempMap = ∅ := rfl
@[simp] theorem rollback_mutex (t : Table) : t.rollback_changes.m_mutex = t.m_mutex := rfl
@[simp] theorem rollback_temp (t : Table) : t.rollback_changes.tempMap = ∅ := rfl
@[simp] theorem rollback_committed (t : Table) : t.rollback_changes.committed = t.committed := rfl

@[simp] theorem create_committed (name : Str) : (create name).committed = fun _ => [] := by
  funext k; simp [committed, create]

theorem read_of_clean {t : Table} (clean : t.tempMap = ∅) : t.read = t.committed := by
  funext k; simp [read, clean]

@[simp] theorem set_read (t : Table) (key value : Str) : (t.set key value).read = Function.update t.read key value := by
  funext k
  simp only [read, set, getElem?_insert, Function.update_apply, eq_comm (a := k)]
  split
  · rfl
  · rfl

/-- Inserting the pairs of a list with distinct keys, one after another. -/
theorem foldl_insert_getElem? (l : List (Str × Str)) (distinct : l.Pairwise (fun a b => ¬ a.1 = b.1))
    (m : StdMap Str) (k : Str) :
    (∀ v, (k, v) ∈ l → (l.foldl (fun m p => m.insert p.1 p.2) m)[k]? = some v) ∧
    ((∀ v, (k, v) ∉ l) → (l.foldl (fun m p => m.insert p.1 p.2) m)[k]? = m[k]?) := by
  induction l generalizing m with
  | nil => simp
  | cons p l ih =>
    obtain ⟨apart, distinct⟩ := List.pairwise_cons.mp distinct
    obtain ⟨later, absent⟩ := ih distinct (m.insert p.1 p.2)
    constructor
    · intro v member
      rcases List.mem_cons.mp member with rfl | inside
      · have gone : ∀ w, (k, w) ∉ l := fun w inside => apart _ inside rfl
        rw [List.foldl_cons, absent gone, getElem?_insert, if_pos rfl]
      · exact later v inside
    · intro none_
      have other : p.1 ≠ k := fun same => none_ p.2 (by rw [← same]; simp)
      rw [List.foldl_cons, absent (fun v inside => none_ v (List.mem_cons_of_mem _ inside)), getElem?_insert,
        if_neg other]

/-- Committing lays the pending pairs over the committed ones. -/
theorem commit_getElem? (t : Table) (k : Str) : t.commit_changes.theMap[k]? = t.tempMap[k]?.or t.theMap[k]? := by
  have distinct : t.tempMap.toList.Pairwise (fun a b => ¬ a.1 = b.1) := by
    simpa using Std.ExtTreeMap.distinct_keys_toList (t := t.tempMap)
  obtain ⟨present, absent⟩ := foldl_insert_getElem? t.tempMap.toList distinct t.theMap k
  rw [commit_changes]
  simp only [Std.ExtTreeMap.foldl_eq_foldl_toList]
  cases pending : t.tempMap[k]? with
  | none =>
    rw [absent (fun v inside => by
      rw [Std.ExtTreeMap.mem_toList_iff_getElem?_eq_some, pending] at inside; cases inside)]
    simp
  | some v =>
    rw [present v (Std.ExtTreeMap.mem_toList_iff_getElem?_eq_some.mpr pending)]
    simp

/-- What a key reads as, when it is in one of the two maps. -/
def overlay (t : Table) (key : Str) : Option Str := t.tempMap[key]?.or t.theMap[key]?

theorem overlay_none (t : Table) (key : Str) :
    t.overlay key = none ↔ t.tempMap[key]? = none ∧ t.theMap[key]? = none := Option.or_eq_none_iff

theorem read_overlay (t : Table) (key : Str) : t.read key = (t.overlay key).getD [] := by
  unfold read committed overlay
  cases t.tempMap[key]? with
  | none => rfl
  | some v => rfl

theorem overlay_of_clean {t : Table} (clean : t.tempMap = ∅) (key : Str) : t.overlay key = t.theMap[key]? := by
  simp [overlay, clean]

theorem touch_overlay (t : Table) (k j : Str) :
    (t.touch k).overlay j = if t.overlay k = none ∧ k = j then some [] else t.overlay j := by
  by_cases absent : t.overlay k = none
  · have both := (t.overlay_none k).mp absent
    unfold touch
    rw [if_pos both]
    by_cases same : k = j
    · subst same
      rw [if_pos ⟨absent, rfl⟩, overlay, both.1, Option.none_or, getElem?_insert, if_pos rfl]
    · simp [overlay, same, getElem?_insert]
  · have kept : t.touch k = t := if_neg (fun both => absent ((t.overlay_none k).mpr both))
    rw [kept, if_neg (fun h => absent h.1)]

theorem set_overlay (t : Table) (k v j : Str) : (t.set k v).overlay j = if k = j then some v else t.overlay j := by
  simp only [overlay, set, getElem?_insert]
  split
  · rfl
  · rfl

@[simp] theorem commit_overlay (t : Table) : t.commit_changes.overlay = t.overlay := by
  funext k
  rw [overlay_of_clean rfl, commit_getElem?, overlay]

/-- Committing a single write to a clean table. -/
theorem set_commit_getElem? {t : Table} (clean : t.tempMap = ∅) (k v j : Str) :
    (t.set k v).commit_changes.theMap[j]? = if k = j then some v else t.theMap[j]? := by
  rw [commit_getElem?, ← overlay_of_clean clean j, ← set_overlay, overlay]

@[simp] theorem touch_name (t : Table) (k : Str) : (t.touch k).m_name = t.m_name := by
  unfold touch; split <;> rfl

@[simp] theorem commit_committed (t : Table) : t.commit_changes.committed = t.read := by
  funext k
  simp only [committed, read, commit_getElem?]
  cases t.tempMap[k]? <;> simp

end Table

/-- The stack, top first, with the counter that the source keeps beside it. -/
structure ValueStack where
  stk : List Str
  total : Nat
  counted : total = stk.length

namespace ValueStack

def empty : ValueStack := ⟨[], 0, rfl⟩

def is_empty (s : ValueStack) : Bool := s.total == 0

def push (s : ValueStack) (value : Str) : ValueStack := ⟨value :: s.stk, s.total + 1, by simp [s.counted]⟩

def stackEmpty : Exn := .OperationException (lit "Stack is empty")

def get_top (s : ValueStack) : Except Exn Str :=
  if s.total == 0 then .error stackEmpty else .ok (s.stk.headD [])

def pop (s : ValueStack) : Except Exn ValueStack :=
  if s.total == 0 then .error stackEmpty else .ok ⟨s.stk.tail, s.total - 1, by simp [s.counted]⟩

theorem ext {a b : ValueStack} (same : a.stk = b.stk) : a = b := by
  obtain ⟨_, _, countedA⟩ := a
  obtain ⟨_, _, countedB⟩ := b
  subst countedA countedB
  simp only at same
  subst same
  rfl

/-- The stack with the given values, top first. -/
def ofList (l : List Str) : ValueStack := ⟨l, l.length, rfl⟩

@[simp] theorem ofList_stk (s : ValueStack) : ofList s.stk = s := ext rfl
@[simp] theorem stk_ofList (l : List Str) : (ofList l).stk = l := rfl

theorem is_empty_iff (s : ValueStack) : s.is_empty = true ↔ s.stk = [] := by
  simp [is_empty, s.counted]

theorem get_top_eq (s : ValueStack) :
    s.get_top = match s.stk with | [] => .error stackEmpty | v :: _ => .ok v := by
  unfold get_top
  cases values : s.stk <;> simp [s.counted, values]

theorem pop_eq (s : ValueStack) :
    s.pop = match s.stk with | [] => .error stackEmpty | _ :: rest => .ok (ofList rest) := by
  obtain ⟨stk, total, counted⟩ := s
  subst counted
  cases stk with
  | nil => rfl
  | cons v rest => rfl

end ValueStack
end TableServer.Stores
