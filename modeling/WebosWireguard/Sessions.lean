import Mathlib.Data.List.Nodup
import Mathlib.Data.List.Perm.Basic
import WebosWireguard.Noise
import WebosWireguard.TransitionRun

/-! The sessions of a device: the table of indices, the keypairs of each peer and the workers
that handle handshake messages. Every stretch under one lock is a step, so the steps of any
number of workers may come in any order. What the network brings, the random keys and indices
and the clock are given with the steps; timers and transport are not part of this. -/
namespace WebosWireguard.Sessions
open Noise TransitionRun

abbrev Peer := Nat
abbrev Worker := Nat

/- A keypair in use. The `id` stands for its address: no other keypair has it. -/
structure Held (V : Type) where
  id : Nat
  keys : Keypair V
  deriving DecidableEq

structure Keypairs (V : Type) where
  current : Option (Held V)
  previous : Option (Held V)
  next : Option (Held V)
  deriving DecidableEq

inductive Entry where
  | handshake (peer : Peer)
  | keypair (peer : Peer) (id : Nat)
  deriving DecidableEq, Repr

def Entry.peer : Entry → Peer
  | .handshake p => p
  | .keypair p _ => p

abbrev IndexTable := Nat → Option Entry

/- What a worker has found between two locks. -/
inductive Work (V : Type) where
  | idle
  | looked (peer : Peer) (msg : MessageResponse V)
  | answered (peer : Peer) (msg : MessageResponse V) (result : Answered V)
  | checked (peer : Peer) (msg : MessageInitiation V) (result : Checked V)

/- `made` lists every keypair the device has made; the position of one is its `id`. -/
structure State (V : Type) where
  table : IndexTable
  handshake : Peer → Handshake V
  keypairs : Peer → Keypairs V
  work : Worker → Work V
  made : List (Keypair V)

section Model
variable {V : Type}

def delete (table : IndexTable) (index : Nat) : IndexTable := Function.update table index none

def swapIndexForKeypair (table : IndexTable) (index id : Nat) : IndexTable :=
  match table index with
  | none => table
  | some entry => Function.update table index (some (.keypair entry.peer id))

def deleteKeypair (table : IndexTable) : Option (Held V) → IndexTable
  | none => table
  | some key => delete table key.keys.localIndex

/- The end of BeginSymmetricSession. -/
def rotate (pairs : Keypairs V) (table : IndexTable) (keypair : Held V) : Keypairs V × IndexTable :=
  if keypair.keys.isInitiator then
    match pairs.next with
    | some next =>
      (⟨some keypair,some next,none⟩,deleteKeypair (deleteKeypair table pairs.current) pairs.previous)
    | none => (⟨some keypair,pairs.current,none⟩,deleteKeypair table pairs.previous)
  else (⟨pairs.current,none,some keypair⟩,deleteKeypair (deleteKeypair table pairs.next) pairs.previous)

def receivedWithKeypair (pairs : Keypairs V) (table : IndexTable) (id : Nat) : Keypairs V × IndexTable :=
  match pairs.next with
  | none => (pairs,table)
  | some next =>
    if next.id ≠ id then (pairs,table)
    else (⟨some next,pairs.current,none⟩,deleteKeypair table pairs.previous)

inductive Action (V : Type) where
  | setPresharedKey (p : Peer) (psk : V)
  | createInitiation (p : Peer) (ephemeral : V) (now index : Nat)
  | createResponse (p : Peer) (ephemeral : V) (index : Nat)
  | checkInitiation (w : Worker) (p : Peer) (msg : MessageInitiation V) (now : Nat)
  | updateInitiation (w : Worker) (now : Nat)
  | lookup (w : Worker) (msg : MessageResponse V)
  | checkResponse (w : Worker)
  | updateResponse (w : Worker)
  | beginSession (p : Peer)
  | received (p : Peer) (id : Nat)
  | zeroKeypairs (p : Peer)
  | clearHandshake (p : Peer)

def State.setHandshake (s : State V) (p : Peer) (h : Handshake V) : State V :=
  {s with handshake := Function.update s.handshake p h}

def State.setKeypairs (s : State V) (p : Peer) (pairs : Keypairs V × IndexTable) : State V :=
  {s with keypairs := Function.update s.keypairs p pairs.1, table := pairs.2}

def State.setWork (s : State V) (w : Worker) (work : Work V) : State V :=
  {s with work := Function.update s.work w work}

/- Delete of the old index and NewIndexForHandshake, which draws until the index is unused. -/
def State.newIndex (s : State V) (p : Peer) (index : Nat) : Option (State V) :=
  let table := delete s.table (s.handshake p).localIndex
  if (table index).isSome then none
  else some {s with table := Function.update table index (some (.handshake p))}

variable [DecidableEq V] (c : Crypto V) (privateKey : V)

def step (s : State V) : Action V → Option (State V)
  | .setPresharedKey p psk => some (s.setHandshake p {s.handshake p with presharedKey := psk})
  | .createInitiation p ephemeral now index =>
    let made := createMessageInitiation c (c.publicKey privateKey) (s.handshake p) ephemeral now index
    match made.2 with
    | none => some (s.setHandshake p made.1)
    | some _ => (s.newIndex p index).map (fun t => t.setHandshake p made.1)
  | .createResponse p ephemeral index =>
    if (s.handshake p).state ≠ .initiationConsumed then some s
    else (s.newIndex p index).map
      (fun t => t.setHandshake p (createMessageResponse c (s.handshake p) ephemeral index).1)
  | .checkInitiation w p msg now =>
    match s.work w,openStatic c privateKey (c.publicKey privateKey) msg with
    | .idle,some o =>
      -- the worker looks the peer up by the key it has read
      if o.peer ≠ (s.handshake p).remoteStatic then none
      else match Noise.checkInitiation c (s.handshake p) o msg now with
        | none => some s
        | some k => some (s.setWork w (.checked p msg k))
    | .idle,none => some s
    | _,_ => none
  | .updateInitiation w now =>
    match s.work w with
    | .checked p msg k => some ((s.setHandshake p (Noise.updateInitiation (s.handshake p) k msg now)).setWork w .idle)
    | _ => none
  | .lookup w msg =>
    match s.work w,s.table msg.receiver with
    | .idle,some (.handshake p) => some (s.setWork w (.looked p msg))
    | .idle,_ => some s
    | _,_ => none
  | .checkResponse w =>
    match s.work w with
    | .looked p msg =>
      match Noise.checkResponse c privateKey (s.handshake p) msg with
      | none => some (s.setWork w .idle)
      | some k => some (s.setWork w (.answered p msg k))
    | _ => none
  | .updateResponse w =>
    match s.work w with
    | .answered p msg k => some ((s.setHandshake p (Noise.updateResponse (s.handshake p) k msg)).setWork w .idle)
    | _ => none
  | .beginSession p =>
    match beginSymmetricSession c (s.handshake p) with
    | none => some s
    | some (h,keys) =>
      let keypair := ⟨s.made.length,keys⟩
      let table := swapIndexForKeypair s.table keys.localIndex keypair.id
      some {(s.setHandshake p h).setKeypairs p (rotate (s.keypairs p) table keypair) with made := s.made ++ [keys]}
  | .received p id => some (s.setKeypairs p (receivedWithKeypair (s.keypairs p) s.table id))
  | .zeroKeypairs p =>
    let pairs := s.keypairs p
    let table := deleteKeypair (deleteKeypair (deleteKeypair s.table pairs.previous) pairs.current) pairs.next
    some (s.setKeypairs p (⟨none,none,none⟩,table))
  | .clearHandshake p =>
    let h := s.handshake p
    some {s.setHandshake p (clear c h) with table := delete s.table h.localIndex}

def initial (remote : Peer → V) : State V where
  table := fun _ => none
  handshake := fun p => newHandshake c privateKey (remote p)
  keypairs := fun _ => ⟨none,none,none⟩
  work := fun _ => .idle
  made := []

end Model

/-! The table of indices names exactly the handshakes that wait and the keypairs in use. -/

section Table
variable {V : Type}

def slots (pairs : Keypairs V) : List (Held V) :=
  pairs.current.toList ++ pairs.previous.toList ++ pairs.next.toList

/- What is said of the table, whatever the slots are in which a peer's keypairs lie. -/
structure Indexed (table : IndexTable) (own : Peer → Nat) (held : Peer → List (Held V)) (count : Nat) : Prop where
  unused : table 0 = none
  pending : ∀ p, own p ≠ 0 → table (own p) = some (.handshake p)
  live : ∀ p, ∀ k ∈ held p, k.keys.localIndex ≠ 0 → table k.keys.localIndex = some (.keypair p k.id)
  handshakes : ∀ {i p}, table i = some (.handshake p) → own p = i
  keypairs : ∀ {i p id}, table i = some (.keypair p id) → ∃ k ∈ held p, k.id = id ∧ k.keys.localIndex = i
  old : ∀ p, ∀ k ∈ held p, k.id < count
  apart : ∀ p, ((held p).map Held.id).Nodup

variable {table : IndexTable} {own : Peer → Nat} {held : Peer → List (Held V)} {count : Nat}

theorem entryUsed (indexed : Indexed table own held count) {i : Nat} {entry : Entry} (found : table i = some entry) :
    i ≠ 0 := by
  intro zero
  rw [zero,indexed.unused] at found
  cases found

theorem deleteZero (indexed : Indexed table own held count) : delete table 0 = table := by
  rw [delete,← indexed.unused]
  exact Function.update_eq_self 0 table

theorem indexedPerm (indexed : Indexed table own held count) {p : Peer} {slots : List (Held V)}
    (same : slots.Perm (held p)) : Indexed table own (Function.update held p slots) count where
  unused := indexed.unused
  pending := indexed.pending
  live := by
    intro q k mem
    by_cases here : q = p
    · subst here
      rw [Function.update_self] at mem
      exact indexed.live q k (same.mem_iff.mp mem)
    · rw [Function.update_of_ne here] at mem
      exact indexed.live q k mem
  handshakes := indexed.handshakes
  keypairs := by
    intro i q id found
    obtain ⟨k,mem,named⟩ := indexed.keypairs found
    refine ⟨k,?_,named⟩
    by_cases here : q = p
    · subst here
      rw [Function.update_self]
      exact same.mem_iff.mpr mem
    · rw [Function.update_of_ne here]
      exact mem
  old := by
    intro q k mem
    by_cases here : q = p
    · subst here
      rw [Function.update_self] at mem
      exact indexed.old q k (same.mem_iff.mp mem)
    · rw [Function.update_of_ne here] at mem
      exact indexed.old q k mem
  apart := by
    intro q
    by_cases here : q = p
    · subst here
      rw [Function.update_self]
      exact ((same.map Held.id).nodup_iff).mpr (indexed.apart q)
    · rw [Function.update_of_ne here]
      exact indexed.apart q

end Table

end WebosWireguard.Sessions
