import Mathlib.Data.Finmap
import Mathlib.Data.List.Lex
import Mathlib.Data.List.Sort
import SetSync.Lib.Program

/-!
# The key-value storage

`AbstractKeyValueStorage` as a finite map from byte strings to byte strings.  `BdbStorage` and
`LevelDbStorage` raise an exception when the database reports an error; `failure` plans one: it is
the number of operations that still succeed before one raises.  `failure = none` is a storage
whose operations all succeed, and then

    get key s   = ⟨.ok (s.table.lookup key), s, []⟩                                  (get_ok)
    put key v s = ⟨.ok (), ⟨s.table.insert key v, none⟩, []⟩                         (put_ok)
-/

namespace SetSync

open Program

abbrev Bytes := List UInt8

/-- What the library throws. -/
inductive Exn where
  | trieException (what : String)
  | dbTrieException (what : String)
  | trieNodeNotFound
  | trieRootNotFound
  | storageException
  | text (what : String)
  | runtimeError (what : String)
deriving DecidableEq

/-- `TrieException` and the classes derived from it. -/
def Exn.isTrieException : Exn → Bool
  | trieException _ | dbTrieException _ | trieNodeNotFound | trieRootNotFound => true
  | _ => false

abbrev Table := Finmap (fun _ : Bytes => Bytes)

/-- The keys as an iterator of the storage gives them, in the order of their bytes. -/
def Table.iterator (t : Table) : List Bytes :=
  Quot.liftOn t.keys.1 (List.insertionSort (· ≤ ·)) fun a b h => by
    have hp : (a.insertionSort (· ≤ ·)).Perm (b.insertionSort (· ≤ ·)) :=
      ((List.perm_insertionSort _ a).trans h).trans (List.perm_insertionSort _ b).symm
    exact hp.eq_of_pairwise' (List.pairwise_insertionSort _ a) (List.pairwise_insertionSort _ b)

theorem Table.mem_iterator (t : Table) (key : Bytes) : key ∈ t.iterator ↔ key ∈ t := by
  rw [← Finmap.mem_keys, Table.iterator]
  obtain ⟨l, hl⟩ := Quot.exists_rep t.keys.1
  show _ ↔ key ∈ t.keys.1
  rw [← hl]
  exact List.mem_insertionSort _

structure Storage where
  table : Table
  failure : Option Nat

namespace Storage

def empty : Storage := ⟨∅, none⟩

variable {ω : Type}

/-- One operation on the database: it raises when the planned failure is due. -/
def operation {α : Type} (f : Table → α × Table) : Prog Storage ω Exn α := fun s =>
  match s.failure with
  | none => ⟨.ok (f s.table).1, ⟨(f s.table).2, none⟩, []⟩
  | some 0 => ⟨.error .storageException, ⟨s.table, none⟩, []⟩
  | some (n + 1) => ⟨.ok (f s.table).1, ⟨(f s.table).2, some n⟩, []⟩

def get (key : Bytes) : Prog Storage ω Exn (Option Bytes) := operation fun t => (t.lookup key, t)

def put (key value : Bytes) : Prog Storage ω Exn Unit :=
  operation fun t => ((), t.insert key value)

def del (key : Bytes) : Prog Storage ω Exn Unit := operation fun t => ((), t.erase key)

def clear : Prog Storage ω Exn Unit := operation fun _ => ((), ∅)

theorem operation_ok {α : Type} (f : Table → α × Table) {s : Storage} (h : s.failure = none) :
    (operation f : Prog Storage ω Exn α) s = ⟨.ok (f s.table).1, ⟨(f s.table).2, none⟩, []⟩ := by
  unfold operation
  rw [h]

/-- An operation ends on every storage. -/
theorem operation_ends {α : Type} (f : Table → α × Table) :
    Prog.Ends (operation f : Prog Storage ω Exn α) := by
  intro s
  unfold operation
  split <;> exact nofun

theorem get_ok (key : Bytes) {s : Storage} (h : s.failure = none) :
    (get key : Prog Storage ω Exn (Option Bytes)) s = ⟨.ok (s.table.lookup key), s, []⟩ := by
  unfold get
  rw [operation_ok _ h, ← h]

theorem put_ok (key value : Bytes) {s : Storage} (h : s.failure = none) :
    (put key value : Prog Storage ω Exn Unit) s = ⟨.ok (), ⟨s.table.insert key value, none⟩, []⟩ :=
  operation_ok _ h

theorem del_ok (key : Bytes) {s : Storage} (h : s.failure = none) :
    (del key : Prog Storage ω Exn Unit) s = ⟨.ok (), ⟨s.table.erase key, none⟩, []⟩ := operation_ok _ h

theorem clear_ok {s : Storage} (h : s.failure = none) :
    (clear : Prog Storage ω Exn Unit) s = ⟨.ok (), ⟨∅, none⟩, []⟩ := operation_ok _ h

end Storage

end SetSync
