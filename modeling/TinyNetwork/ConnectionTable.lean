import TinyNetwork.Decimal
import TinyNetwork.MachineWord
import TinyNetwork.Transition
import Mathlib.Data.Fintype.Defs
import Mathlib.Data.List.Nodup

/-! The names of a server's connections and the table under them: `newConnection` and
`removeConnectionInLoop` of `net/TcpServer.cc` with `toIpPort` of `net/InetAddress.cc`. A
name is the server's, the listen address and a counter, the last two formatted into a
buffer of 64 bytes. A connection is known by its place in the order of the calls, and the
names they were given are kept in that order. -/
namespace TinyNetwork
open MachineWord Transition

structure InetAddress where
  sin_addr : Fin 4 → UInt8
  port : UInt16

namespace InetAddress

def dot : Byte := 46
def colon : Byte := 58

def inet_ntop (a : InetAddress) : List Byte :=
  Decimal.ofNat (a.sin_addr 0).toNat ++ [dot] ++ Decimal.ofNat (a.sin_addr 1).toNat ++ [dot] ++
    Decimal.ofNat (a.sin_addr 2).toNat ++ [dot] ++ Decimal.ofNat (a.sin_addr 3).toNat

/-- The text fits its own buffer of 64 bytes by `toIpPort_length`. -/
def toIpPort (a : InetAddress) : List Byte :=
  a.inet_ntop ++ [colon] ++ Decimal.ofNat a.port.toNat

theorem byte_length (b : UInt8) : (Decimal.ofNat b.toNat).length ≤ 3 :=
  Decimal.ofNat_length (by decide) (b.toNat_lt.trans (by decide))

theorem toIpPort_length (a : InetAddress) : a.toIpPort.length ≤ 21 := by
  have port : (Decimal.ofNat a.port.toNat).length ≤ 5 :=
    Decimal.ofNat_length (by decide) (a.port.toNat_lt.trans (by decide))
  have b₀ := byte_length (a.sin_addr 0)
  have b₁ := byte_length (a.sin_addr 1)
  have b₂ := byte_length (a.sin_addr 2)
  have b₃ := byte_length (a.sin_addr 3)
  simp only [toIpPort, inet_ntop, List.length_append, List.length_singleton]
  omega

end InetAddress

structure ConnectionTable where
  ipPort_ : List Byte
  name_ : List Byte
  nextConnId_ : ℤ
  connections_ : List Byte → Option ℕ
  names : List (List Byte)
  removed : List ℕ

namespace ConnectionTable

def hyphen : Byte := 45
def hash : Byte := 35

/-- `snprintf(buf, size, ...)`: what does not fit before the NUL is cut off. -/
def snprintf (size : ℕ) (text : List Byte) : List Byte := text.take (size - 1)

def suffix (ipPort : List Byte) (connId : ℤ) : List Byte :=
  [hyphen] ++ ipPort ++ [hash] ++ Decimal.ofInt connId

def construct (listenAddr : InetAddress) (nameArg : List Byte) : ConnectionTable where
  ipPort_ := listenAddr.toIpPort
  name_ := nameArg
  nextConnId_ := 1
  connections_ := fun _ => none
  names := []
  removed := []

def connName (s : ConnectionTable) : List Byte :=
  s.name_ ++ snprintf 64 (suffix s.ipPort_ s.nextConnId_)

/-- Beyond `INT_MAX` the increment is undefined behaviour in C++; here it wraps. -/
def newConnection (s : ConnectionTable) : ConnectionTable :=
  { s with
    nextConnId_ := Int.bmod (s.nextConnId_ + 1) (2 ^ 32)
    connections_ := Function.update s.connections_ s.connName (some s.names.length)
    names := s.names ++ [s.connName] }

def removeConnectionInLoop (s : ConnectionTable) (conn : ℕ) : Option ConnectionTable :=
  s.names[conn]?.map fun name =>
    { s with
      connections_ := Function.update s.connections_ name none
      removed := s.removed ++ [conn] }

inductive Action where
  | newConnection
  | removeConnectionInLoop (conn : ℕ)

def table : System ConnectionTable Action where
  init s := ∃ listenAddr nameArg, s = construct listenAddr nameArg
  next s
    | .newConnection => some s.newConnection
    | .removeConnectionInLoop conn => s.removeConnectionInLoop conn

def Few (s : ConnectionTable) : Action → Prop
  | .newConnection => s.names.length + 1 < 2 ^ 31
  | .removeConnectionInLoop _ => True

instance (s : ConnectionTable) : (a : Action) → Decidable (s.Few a)
  | .newConnection => Nat.decLt _ _
  | .removeConnectionInLoop _ => isTrue trivial

section Names

def nameOf (s : ConnectionTable) (conn : ℕ) : List Byte :=
  s.name_ ++ suffix s.ipPort_ (conn + 1)

theorem nameOf_injective (s : ConnectionTable) : Function.Injective s.nameOf := by
  intro conn other same
  have digits := List.append_cancel_left (List.append_cancel_left same)
  have numbers := Decimal.ofInt_injective digits
  omega

theorem suffix_length {ipPort : List Byte} {connId : ℤ} (short : ipPort.length ≤ 21)
    (low : 0 ≤ connId) (high : connId < 2 ^ 31) : (suffix ipPort connId).length < 64 := by
  have digits : (Decimal.ofInt connId).length ≤ 10 + 1 :=
    Decimal.ofInt_length (by decide) (by omega)
  simp only [suffix, List.length_append, List.length_singleton]
  omega

end Names

structure Numbered (s : ConnectionTable) : Prop where
  short : s.ipPort_.length ≤ 21
  few : s.names.length < 2 ^ 31
  counter : s.nextConnId_ = Int.bmod (s.names.length + 1) (2 ^ 32)
  names : ∀ conn name, s.names[conn]? = some name ↔ conn < s.names.length ∧ name = s.nameOf conn
  made : ∀ conn ∈ s.removed, conn < s.names.length
  entries : ∀ name conn, s.connections_ name = some conn ↔
    s.names[conn]? = some name ∧ conn ∉ s.removed

section Steps
variable {s t : ConnectionTable}

theorem construct_numbered (listenAddr : InetAddress) (nameArg : List Byte) :
    Numbered (construct listenAddr nameArg) where
  short := listenAddr.toIpPort_length
  few := Nat.two_pow_pos 31
  counter := by simp [construct]
  names := by simp [construct]
  made := by simp [construct]
  entries := by simp [construct]

/-- The buffer takes the whole text of the next connection. -/
theorem connName_eq (h : Numbered s) (room : s.names.length + 1 < 2 ^ 31) :
    s.connName = s.nameOf s.names.length := by
  have counter : s.nextConnId_ = s.names.length + 1 := by
    rw [h.counter]
    exact Int.bmod_eq_of_le (by omega) (by omega)
  have fits : (suffix s.ipPort_ (s.names.length + 1)).length < 64 :=
    suffix_length h.short (by omega) (by omega)
  rw [connName, nameOf, counter, snprintf, List.take_of_length_le (by omega)]

theorem connName_new (h : Numbered s) (room : s.names.length + 1 < 2 ^ 31) :
    s.connName ∉ s.names := by
  intro mem
  obtain ⟨conn, at_⟩ := List.mem_iff_getElem?.mp mem
  obtain ⟨inside, same⟩ := (h.names conn s.connName).mp at_
  rw [connName_eq h room] at same
  exact inside.ne' (s.nameOf_injective same)

theorem connections_new (h : Numbered s) (room : s.names.length + 1 < 2 ^ 31) :
    s.connections_ s.connName = none := by
  refine Option.eq_none_iff_forall_ne_some.mpr fun conn entry => ?_
  exact connName_new h room (List.mem_of_getElem? ((h.entries _ conn).mp entry).1)

theorem concat_at_new {names : List (List Byte)} {name : List Byte} (new : name ∉ names)
    (conn : ℕ) : (names ++ [name])[conn]? = some name ↔ conn = names.length := by
  rcases Nat.lt_trichotomy conn names.length with before | rfl | behind
  · rw [List.getElem?_append_left before]
    exact iff_of_false (fun at_ => new (List.mem_of_getElem? at_)) before.ne
  · simp
  · rw [List.getElem?_eq_none (by simpa using behind)]
    exact iff_of_false (by simp) behind.ne'

theorem concat_at_other {names : List (List Byte)} {name other : List Byte} (h : other ≠ name)
    (conn : ℕ) : (names ++ [name])[conn]? = some other ↔ names[conn]? = some other := by
  rcases Nat.lt_trichotomy conn names.length with before | rfl | behind
  · rw [List.getElem?_append_left before]
  · simpa using h.symm
  · rw [List.getElem?_eq_none (by simpa using behind), List.getElem?_eq_none behind.le]

theorem newConnection_numbered (h : Numbered s) (room : s.names.length + 1 < 2 ^ 31) :
    Numbered s.newConnection := by
  have name := connName_eq h room
  have new := connName_new h room
  refine ⟨h.short, ?_, ?_, ?_, ?_, ?_⟩
  · simpa [newConnection] using room
  · have counter : s.nextConnId_ = s.names.length + 1 := by
      rw [h.counter]
      exact Int.bmod_eq_of_le (by omega) (by omega)
    simp [newConnection, counter]
  · intro conn other
    change (s.names ++ [s.connName])[conn]? = some other ↔
      conn < (s.names ++ [s.connName]).length ∧ other = s.nameOf conn
    rw [List.length_append, List.length_singleton]
    rcases Nat.lt_trichotomy conn s.names.length with before | rfl | behind
    · rw [List.getElem?_append_left before, h.names]
      simp only [before, true_and, Nat.lt_succ_of_lt before]
    · rw [List.getElem?_concat_length, name, Option.some.injEq]
      simp only [Nat.lt_succ_self, true_and]
      exact eq_comm
    · rw [List.getElem?_eq_none (by rw [List.length_append, List.length_singleton]; omega)]
      exact iff_of_false (by simp) fun inside => by omega
  · intro conn gone
    exact Nat.lt_of_lt_of_le (h.made conn gone) (by simp [newConnection])
  · intro other conn
    change Function.update s.connections_ s.connName (some s.names.length) other = some conn ↔
      (s.names ++ [s.connName])[conn]? = some other ∧ conn ∉ s.removed
    by_cases here : other = s.connName
    · subst here
      rw [Function.update_self, concat_at_new new, Option.some.injEq]
      refine ⟨?_, fun at_ => at_.1.symm⟩
      rintro rfl
      exact ⟨rfl, fun gone => Nat.lt_irrefl _ (h.made _ gone)⟩
    · rw [Function.update_of_ne here, h.entries, concat_at_other here]

/-- A name belongs to one connection. -/
theorem unique (h : Numbered s) {conn other : ℕ} {name : List Byte}
    (at_ : s.names[conn]? = some name) (also : s.names[other]? = some name) : conn = other := by
  have first := ((h.names conn name).mp at_).2
  have second := ((h.names other name).mp also).2
  exact s.nameOf_injective (first.symm.trans second)

theorem removeConnectionInLoop_numbered {conn : ℕ} (h : Numbered s)
    (step : s.removeConnectionInLoop conn = some t) : Numbered t := by
  obtain ⟨name, at_, rfl⟩ := Option.map_eq_some_iff.mp step
  obtain ⟨inside, -⟩ := (h.names conn name).mp at_
  refine ⟨h.short, h.few, h.counter, h.names, ?_, ?_⟩
  · intro other gone
    rcases List.mem_append.mp gone with before | now
    · exact h.made other before
    · exact List.mem_singleton.mp now ▸ inside
  · intro other k
    change Function.update s.connections_ name none other = some k ↔
      s.names[k]? = some other ∧ k ∉ s.removed ++ [conn]
    rw [List.mem_append, List.mem_singleton, not_or]
    by_cases here : other = name
    · subst here
      rw [Function.update_self]
      refine iff_of_false (by simp) ?_
      rintro ⟨also, -, not_conn⟩
      exact not_conn (unique h also at_)
    · rw [Function.update_of_ne here, h.entries]
      have apart : s.names[k]? = some other → k ≠ conn := by
        rintro also rfl
        exact here (Option.some.inj (also.symm.trans at_))
      exact ⟨fun e => ⟨e.1, e.2, apart e.1⟩, fun e => ⟨e.1, e.2.1⟩⟩

theorem numbered (h : table.Reachable Few s) : Numbered s := by
  refine h.invariant ?_ fun s action t hs few step => ?_
  · rintro s ⟨listenAddr, nameArg, rfl⟩
    exact construct_numbered listenAddr nameArg
  · cases action with
    | newConnection =>
      obtain rfl := Option.some.inj step
      exact newConnection_numbered hs few
    | removeConnectionInLoop conn => exact removeConnectionInLoop_numbered hs step

theorem names_nodup (h : Numbered s) : s.names.Nodup := by
  refine List.nodup_iff_getElem?_ne_getElem?.mpr fun i j before inside same => ?_
  have at_ := List.getElem?_eq_getElem inside
  exact before.ne (unique h (same.trans at_) at_)

theorem removal_keeps (h : Numbered s) {conn other : ℕ} {name : List Byte}
    (step : s.removeConnectionInLoop conn = some t) (different : other ≠ conn)
    (at_ : s.names[other]? = some name) : t.connections_ name = s.connections_ name := by
  obtain ⟨gone, here, rfl⟩ := Option.map_eq_some_iff.mp step
  refine Function.update_of_ne ?_ _ _
  rintro rfl
  exact different (unique h at_ here)

/-- The names are whole and distinct, an insertion finds no entry under its name, a removal
leaves the entries of the other connections, and the table is that of the connections
accepted and not yet removed. -/
theorem table_exact (h : table.Reachable Few s) :
    s.names.Nodup ∧
    (∀ conn < s.names.length, s.names[conn]? = some (s.nameOf conn) ∧
      (suffix s.ipPort_ (conn + 1)).length < 64) ∧
    (s.Few .newConnection → s.connName ∉ s.names ∧ s.connections_ s.connName = none) ∧
    (∀ conn < s.names.length, ∃ t, table.next s (.removeConnectionInLoop conn) = some t ∧
      ∀ other ≠ conn, ∀ name, s.names[other]? = some name →
        t.connections_ name = s.connections_ name) ∧
    ∀ name conn, s.connections_ name = some conn ↔
      s.names[conn]? = some name ∧ conn ∉ s.removed := by
  have numbers := numbered h
  have few := numbers.few
  refine ⟨names_nodup numbers, fun conn inside => ⟨?_, ?_⟩, fun room => ?_, fun conn inside => ?_,
    numbers.entries⟩
  · exact (numbers.names conn _).mpr ⟨inside, rfl⟩
  · exact suffix_length numbers.short (by omega) (by omega)
  · exact ⟨connName_new numbers room, connections_new numbers room⟩
  · have at_ := (numbers.names conn _).mpr ⟨inside, rfl⟩
    have step : s.removeConnectionInLoop conn = some _ := Option.map_eq_some_iff.mpr ⟨_, at_, rfl⟩
    exact ⟨_, step, fun other different name there => removal_keeps numbers step different there⟩

theorem table_exact_three :
    ∃ s, table.Reachable Few s ∧ s.names.map s.connections_ = [some 0, none, some 2] ∧
      s.names.Nodup := by
  have run : (table.execute Few (construct ⟨fun i => [127, 0, 0, 1].getD i 0, 8080⟩ [115])
      [.newConnection, .newConnection, .removeConnectionInLoop 1, .newConnection,
        .removeConnectionInLoop 1]).map (fun s => s.names.map s.connections_) =
      some [some 0, none, some 2] := by decide +kernel
  obtain ⟨s, reached, entries⟩ := System.Reachable.of_replay
    (⟨⟨fun i => [127, 0, 0, 1].getD i 0, 8080⟩, [115], rfl⟩ : table.init _) run
  exact ⟨s, reached, entries, (table_exact reached).1⟩

end Steps

end ConnectionTable
end TinyNetwork
