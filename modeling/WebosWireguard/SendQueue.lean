import Mathlib.Algebra.Order.BigOperators.Group.Finset
import Mathlib.Data.Fintype.Card
import Mathlib.Data.Multiset.UnionInter
import WebosWireguard.SlotSum
import WebosWireguard.TransitionRun

/-! How the packets for a peer get their nonces. Several routines may be in SendStagedPackets
at once; each use of a channel or of an atomic counter is one step. The two queues a batch
is pushed to are taken together. Starting handshakes and encrypting are not part of this. -/
namespace WebosWireguard.SendQueue
open TransitionRun SlotSum

def rejectAfterMessages : Nat := 2^64 - 2^13 - 1
def queueStagedSize : Nat := 128

abbrev Keypair := Nat

section Model
variable {n : Nat} {P : Type}

/- Where a routine stands. Inside StagePackets `next` says who called it: the reader of the
tunnel, or SendStagedPackets with the packets that have a nonce already. -/
inductive Place (P : Type) where
  | idle
  | staging (elems : List P) (next : Option (Keypair × List (P × Nat)))
  | clearing (elems : List P) (next : Option (Keypair × List (P × Nat)))
  | keepalive (elem : P)
  | top
  | current
  | checking (k : Keypair)
  | taking (k : Keypair)
  | assigning (k : Keypair) (rest : List P) (kept : List (P × Nat)) (ooo : List P)
  | storing (k : Keypair) (elem : P) (rest : List P) (kept : List (P × Nat)) (ooo : List P)
  | pushing (k : Keypair) (kept : List (P × Nat)) (again : Bool)
  deriving DecidableEq

/- `given` and `dropped` record the packets handed over and those released unsent. -/
structure State (n : Nat) (P : Type) where
  place : Fin n → Place P
  staged : List (List P)
  current : Option Keypair
  sendNonce : Keypair → Nat
  outbound : List (Keypair × Nat × P)
  dropped : List P
  given : List P

def State.move (s : State n P) (r : Fin n) (next : Place P) : State n P :=
  {s with place := Function.update s.place r next}

structure Answers where
  up : Bool
  running : Bool
  expired : Bool
  deriving DecidableEq, Repr

def advance (s : State n P) (r : Fin n) (a : Answers) : Option (State n P) :=
  match s.place r with
  | .idle => none
  | .staging elems next =>
    if s.staged.length < queueStagedSize then
      some ({s with staged := s.staged ++ [elems]}.move r
        (match next with | none => .top | some (k,kept) => .pushing k kept true))
    else some (s.move r (.clearing elems next))
  | .clearing elems next =>
    match s.staged with
    | [] => some (s.move r (.staging elems next))
    | tooOld::rest => some ({s with staged := rest, dropped := s.dropped ++ tooOld}.move r (.staging elems next))
  | .keepalive elem =>
    if s.staged.length < queueStagedSize then some ({s with staged := s.staged ++ [[elem]]}.move r .top)
    else some ({s with dropped := s.dropped ++ [elem]}.move r .top)
  | .top => some (s.move r (if s.staged.isEmpty || !a.up then .idle else .current))
  | .current => some (s.move r (match s.current with | none => .idle | some k => .checking k))
  | .checking k =>
    some (s.move r (if s.sendNonce k ≥ rejectAfterMessages || a.expired then .idle else .taking k))
  | .taking k =>
    match s.staged with
    | [] => some (s.move r .idle)
    | elems::rest => some ({s with staged := rest}.move r (.assigning k elems [] []))
  | .assigning k [] kept ooo =>
    some (s.move r (if ooo.isEmpty then .pushing k kept false else .staging ooo (some (k,kept))))
  | .assigning k (elem::rest) kept ooo =>
    let nonce := s.sendNonce k
    some ({s with sendNonce := Function.update s.sendNonce k ((nonce + 1) % 2^64)}.move r
      (if nonce ≥ rejectAfterMessages then .storing k elem rest kept ooo
      else .assigning k rest (kept ++ [(elem,nonce)]) ooo))
  | .storing k elem rest kept ooo =>
    some ({s with sendNonce := Function.update s.sendNonce k rejectAfterMessages}.move r
      (.assigning k rest kept (ooo ++ [elem])))
  | .pushing k kept again =>
    let next := if again then .top else .taking k
    if kept.isEmpty then some (s.move r .top)
    else if a.running then
      some ({s with outbound := s.outbound ++ kept.map (fun e : P × Nat => (k,e.2,e.1))}.move r next)
    else some ({s with dropped := s.dropped ++ kept.map Prod.fst}.move r next)

/- What the routines begin, and what others do to the queue and the keypairs meanwhile. -/
inductive Action (n : Nat) (P : Type) where
  | stagePackets (r : Fin n) (elems : List P)
  | sendKeepalive (r : Fin n) (elem : P) (running : Bool)
  | sendStagedPackets (r : Fin n)
  | advance (r : Fin n) (answers : Answers)
  | flushStagedPackets
  | rotate (k : Option Keypair)
  | expireKeypair (k : Keypair)

def step (s : State n P) : Action n P → Option (State n P)
  | .stagePackets r elems =>
    match s.place r with
    | .idle => some ({s with given := s.given ++ elems}.move r (.staging elems none))
    | _ => none
  | .sendKeepalive r elem running =>
    match s.place r with
    | .idle =>
      if s.staged.isEmpty && running then some ({s with given := s.given ++ [elem]}.move r (.keepalive elem))
      else some (s.move r .top)
    | _ => none
  | .sendStagedPackets r =>
    match s.place r with
    | .idle => some (s.move r .top)
    | _ => none
  | .advance r answers => advance s r answers
  | .flushStagedPackets =>
    match s.staged with
    | [] => none
    | elems::rest => some {s with staged := rest, dropped := s.dropped ++ elems}
  | .rotate k => some {s with current := k}
  | .expireKeypair k => some {s with sendNonce := Function.update s.sendNonce k rejectAfterMessages}

def initial (n : Nat) (P : Type) : State n P := ⟨fun _ => .idle,[],none,fun _ => 0,[],[],[]⟩

end Model

/-! Which packets and nonces a routine has in its hands. -/

section Hands
variable {n : Nat} {P : Type}

def keyed (k : Keypair) (kept : List (P × Nat)) : Multiset (Keypair × Nat) :=
  (kept.map (fun e => (k,e.2)) : List (Keypair × Nat))

def Place.nonces : Place P → Multiset (Keypair × Nat)
  | .staging _ (some (k,kept)) | .clearing _ (some (k,kept)) => keyed k kept
  | .assigning k _ kept _ | .storing k _ _ kept _ | .pushing k kept _ => keyed k kept
  | _ => 0

def Place.packets : Place P → Multiset P
  | .staging elems next | .clearing elems next =>
    (elems : Multiset P) + ((next.elim [] Prod.snd).map Prod.fst : List P)
  | .keepalive elem => {elem}
  | .assigning _ rest kept ooo => (rest : Multiset P) + (kept.map Prod.fst : List P) + (ooo : Multiset P)
  | .storing _ elem rest kept ooo =>
    {elem} + (rest : Multiset P) + (kept.map Prod.fst : List P) + (ooo : Multiset P)
  | .pushing _ kept _ => (kept.map Prod.fst : List P)
  | _ => 0

/- One for a routine that still has to put back the counter of the keypair. -/
def Place.late (k : Keypair) : Place P → Nat
  | .storing j _ _ _ _ => if j = k then 1 else 0
  | _ => 0

/- The nonces in use: those of the packets pushed and of those about to be. -/
def used (outbound : List (Keypair × Nat × P)) (place : Fin n → Place P) : Multiset (Keypair × Nat) :=
  (outbound.map (fun e => (e.1,e.2.1)) : List (Keypair × Nat)) + ∑ r, (place r).nonces

structure Fresh (sendNonce : Keypair → Nat) (outbound : List (Keypair × Nat × P)) (place : Fin n → Place P) : Prop where
  nodup : (used outbound place).Nodup
  below : ∀ k m, (k,m) ∈ used outbound place → m < sendNonce k ∧ m < rejectAfterMessages
  near : ∀ k, sendNonce k ≤ rejectAfterMessages + ∑ r, (place r).late k

variable {c : Keypair → Nat} {o : List (Keypair × Nat × P)} {place : Fin n → Place P} {r : Fin n} {next : Place P}

theorem usedUpdate : used o (Function.update place r next) + (place r).nonces = used o place + next.nonces := by
  unfold used
  rw [add_assoc,sumUpdate,add_assoc]

theorem lateUpdate (k : Keypair) :
    ∑ i, (Function.update place r next i).late k + (place r).late k = ∑ i, (place i).late k + next.late k :=
  sumUpdate (Place.late k) place r next

/- A step that takes no nonce and gives none away. -/
theorem freshMove (fresh : Fresh c o place) (fewer : next.nonces ≤ (place r).nonces)
    (late : ∀ k, next.late k = (place r).late k) : Fresh c o (Function.update place r next) := by
  have less : used o (Function.update place r next) ≤ used o place := by
    refine le_of_add_le_add_right (a := (place r).nonces) ?_
    rw [usedUpdate]
    exact add_le_add_right fewer _
  refine ⟨Multiset.nodup_of_le less fresh.nodup,fun k m mem => fresh.below k m (Multiset.mem_of_le less mem),fun k => ?_⟩
  have same : ∑ i, (Function.update place r next i).late k + (place r).late k = ∑ i, (place i).late k + next.late k :=
    lateUpdate k
  rw [late] at same
  have bound := fresh.near k
  omega

theorem lateOthers (few : n ≤ 2^13) {k : Keypair} (free : (place r).late k = 0) :
    ∑ i, (place i).late k + 1 ≤ 2^13 := by
  have each : ∀ i, (place i).late k ≤ 1 := by
    intro i
    unfold Place.late
    split
    · split <;> omega
    · omega
  have rest : ∑ i ∈ Finset.univ.erase r, (place i).late k ≤ (Finset.univ.erase r).card * 1 :=
    Finset.sum_le_card_nsmul _ _ _ (fun i _ => each i)
  rw [← Finset.add_sum_erase _ _ (Finset.mem_univ r),free]
  rw [Finset.card_erase_of_mem (Finset.mem_univ r),Finset.card_univ,Fintype.card_fin] at rest
  have some : 0 < n := Fin.pos r
  omega

/- A packet gets the nonce the counter stood at. -/
theorem freshAssign (fresh : Fresh c o place) {k : Keypair} (small : c k < rejectAfterMessages)
    (taken : next.nonces = (place r).nonces + {(k,c k)}) (late : ∀ j, next.late j = (place r).late j) :
    Fresh (Function.update c k ((c k + 1) % 2^64)) o (Function.update place r next) := by
  have limit : rejectAfterMessages < 2^64 := by decide
  have whole : (c k + 1) % 2^64 = c k + 1 := Nat.mod_eq_of_lt (by omega)
  have more : used o (Function.update place r next) = used o place + {(k,c k)} := by
    refine add_right_cancel (b := (place r).nonces) ?_
    rw [usedUpdate,taken,add_assoc,add_comm {(k,c k)}]
  have counter : ∀ j, c j ≤ Function.update c k (c k + 1) j := by
    intro j
    by_cases same : j = k
    · subst same
      simp
    · simp [same]
  rw [whole]
  refine ⟨?_,fun j m mem => ?_,fun j => ?_⟩
  · rw [more,Multiset.add_comm,Multiset.singleton_add,Multiset.nodup_cons]
    exact ⟨fun mem => absurd (fresh.below k (c k) mem).1 (lt_irrefl _),fresh.nodup⟩
  · rw [more,Multiset.mem_add,Multiset.mem_singleton] at mem
    rcases mem with old | new
    · have bound := fresh.below j m old
      have grown := counter j
      omega
    · cases new
      simp only [Function.update_self]
      omega
  · have same : ∑ i, (Function.update place r next i).late j + (place r).late j =
        ∑ i, (place i).late j + next.late j := lateUpdate j
    rw [late] at same
    have bound := fresh.near j
    by_cases here : j = k
    · subst here
      rw [Function.update_self]
      omega
    · rw [Function.update_of_ne here]
      omega

/- The counter is run out; it is moved on nevertheless, and put back later. -/
theorem freshSpent (few : n ≤ 2^13) (fresh : Fresh c o place) {k : Keypair} (spent : rejectAfterMessages ≤ c k)
    (kept : next.nonces = (place r).nonces) (free : (place r).late k = 0)
    (late : ∀ j, next.late j = (place r).late j + if k = j then 1 else 0) :
    Fresh (Function.update c k ((c k + 1) % 2^64)) o (Function.update place r next) := by
  have limit : rejectAfterMessages + 2^13 + 1 = 2^64 := by decide
  have others := lateOthers few free
  have top := fresh.near k
  have whole : (c k + 1) % 2^64 = c k + 1 := Nat.mod_eq_of_lt (by omega)
  have same : used o (Function.update place r next) = used o place := by
    refine add_right_cancel (b := (place r).nonces) ?_
    rw [usedUpdate,kept]
  rw [whole]
  refine ⟨by rw [same]; exact fresh.nodup,fun j m mem => ?_,fun j => ?_⟩
  · rw [same] at mem
    have bound := fresh.below j m mem
    by_cases here : j = k
    · subst here
      rw [Function.update_self]
      omega
    · rwa [Function.update_of_ne here]
  · have moved : ∑ i, (Function.update place r next i).late j + (place r).late j =
        ∑ i, (place i).late j + next.late j := lateUpdate j
    have bound := fresh.near j
    rw [late] at moved
    by_cases here : j = k
    · subst here
      rw [if_pos rfl] at moved
      rw [Function.update_self]
      omega
    · rw [if_neg (Ne.symm here)] at moved
      rw [Function.update_of_ne here]
      omega

theorem freshReset (fresh : Fresh c o place) (k : Keypair) :
    Fresh (Function.update c k rejectAfterMessages) o place := by
  refine ⟨fresh.nodup,fun j m mem => ?_,fun j => ?_⟩
  · have bound := fresh.below j m mem
    by_cases here : j = k
    · subst here
      rw [Function.update_self]
      exact ⟨bound.2,bound.2⟩
    · rwa [Function.update_of_ne here]
  · by_cases here : j = k
    · subst here
      rw [Function.update_self]
      omega
    · rw [Function.update_of_ne here]
      exact fresh.near j

/- The routine is done putting back the counter. -/
theorem freshStored (fresh : Fresh c o place) {k : Keypair} (kept : next.nonces = (place r).nonces)
    (late : ∀ j, (place r).late j = next.late j + if k = j then 1 else 0) :
    Fresh (Function.update c k rejectAfterMessages) o (Function.update place r next) := by
  have same : used o (Function.update place r next) = used o place := by
    refine add_right_cancel (b := (place r).nonces) ?_
    rw [usedUpdate,kept]
  have reset := freshReset fresh k
  refine ⟨by rw [same]; exact fresh.nodup,fun j m mem => reset.below j m (same ▸ mem),fun j => ?_⟩
  have moved : ∑ i, (Function.update place r next i).late j + (place r).late j =
      ∑ i, (place i).late j + next.late j := lateUpdate j
  have bound := fresh.near j
  rw [late] at moved
  by_cases here : j = k
  · subst here
    rw [Function.update_self]
    omega
  · rw [if_neg (Ne.symm here)] at moved
    rw [Function.update_of_ne here]
    omega

theorem freshPush (fresh : Fresh c o place) {k : Keypair} {kept : List (P × Nat)}
    (held : (place r).nonces = keyed k kept) (given : next.nonces = 0)
    (late : ∀ j, next.late j = (place r).late j) :
    Fresh c (o ++ kept.map (fun e : P × Nat => (k,e.2,e.1))) (Function.update place r next) := by
  have same : used (o ++ kept.map (fun e : P × Nat => (k,e.2,e.1))) (Function.update place r next) = used o place := by
    have moved : used o (Function.update place r next) + (place r).nonces = used o place + next.nonces := usedUpdate
    rw [given,add_zero,held] at moved
    rw [← moved]
    simp only [used,keyed,List.map_append,List.map_map,Function.comp_def,← Multiset.coe_add]
    rw [add_right_comm]
  refine ⟨by rw [same]; exact fresh.nodup,fun j m mem => fresh.below j m (same ▸ mem),fun j => ?_⟩
  have moved : ∑ i, (Function.update place r next i).late j + (place r).late j =
      ∑ i, (place i).late j + next.late j := lateUpdate j
  have bound := fresh.near j
  rw [late] at moved
  omega

/- What a routine's step does to the nonces in use. -/
inductive Nonces (s t : State n P) (r : Fin n) (next : Place P) : Prop where
  | none (counters : t.sendNonce = s.sendNonce) (sent : t.outbound = s.outbound)
      (fewer : next.nonces ≤ (s.place r).nonces) (late : ∀ j, next.late j = (s.place r).late j)
  | taken (k : Keypair) (small : s.sendNonce k < rejectAfterMessages)
      (counters : t.sendNonce = Function.update s.sendNonce k ((s.sendNonce k + 1) % 2^64))
      (sent : t.outbound = s.outbound) (more : next.nonces = (s.place r).nonces + {(k,s.sendNonce k)})
      (late : ∀ j, next.late j = (s.place r).late j)
  | spent (k : Keypair) (out : rejectAfterMessages ≤ s.sendNonce k)
      (counters : t.sendNonce = Function.update s.sendNonce k ((s.sendNonce k + 1) % 2^64))
      (sent : t.outbound = s.outbound) (kept : next.nonces = (s.place r).nonces) (free : (s.place r).late k = 0)
      (late : ∀ j, next.late j = (s.place r).late j + if k = j then 1 else 0)
  | stored (k : Keypair) (counters : t.sendNonce = Function.update s.sendNonce k rejectAfterMessages)
      (sent : t.outbound = s.outbound) (kept : next.nonces = (s.place r).nonces)
      (late : ∀ j, (s.place r).late j = next.late j + if k = j then 1 else 0)
  | pushed (k : Keypair) (kept : List (P × Nat)) (counters : t.sendNonce = s.sendNonce)
      (sent : t.outbound = s.outbound ++ kept.map (fun e : P × Nat => (k,e.2,e.1)))
      (held : (s.place r).nonces = keyed k kept) (given : next.nonces = 0)
      (late : ∀ j, next.late j = (s.place r).late j)

/- The packets that are in no routine's hands. -/
def State.resting (s : State n P) : Multiset P :=
  (s.staged.flatten : Multiset P) + (s.outbound.map (fun e => e.2.2) : List P) + (s.dropped : Multiset P)

theorem consCoe (a : P) (l : List P) : ((a::l : List P) : Multiset P) = {a} + (l : Multiset P) := rfl

structure Effect (s t : State n P) (r : Fin n) (next : Place P) : Prop where
  place : t.place = Function.update s.place r next
  given : t.given = s.given
  packets : t.resting + next.packets = s.resting + (s.place r).packets
  nonces : Nonces s t r next

theorem advanceEffect {s t : State n P} {a : Answers} (stepped : advance s r a = some t) : ∃ next, Effect s t r next := by
  unfold advance at stepped
  split at stepped
  case h_1 => contradiction
  case h_2 elems next here =>
    split at stepped
    · cases Option.some.inj stepped
      refine ⟨_,rfl,rfl,?_,.none rfl rfl ?_ (fun k => ?_)⟩
      · rw [here]
        cases next <;> simp [State.move,State.resting,Place.packets,← Multiset.coe_add] <;> abel
      · rw [here]
        cases next <;> exact le_refl _
      · rw [here]
        cases next <;> rfl
    · cases Option.some.inj stepped
      refine ⟨_,rfl,rfl,by rw [here]; rfl,.none rfl rfl ?_ (fun k => by rw [here]; rfl)⟩
      rw [here]
      cases next <;> exact le_refl _
  case h_3 elems next here =>
    have fewer : (Place.staging elems next).nonces ≤ (s.place r).nonces := by
      rw [here]
      cases next <;> exact le_refl _
    split at stepped
    · cases Option.some.inj stepped
      exact ⟨_,rfl,rfl,by rw [here]; rfl,.none rfl rfl fewer (fun k => by rw [here]; rfl)⟩
    · rename_i old rest full
      cases Option.some.inj stepped
      refine ⟨_,rfl,rfl,?_,.none rfl rfl fewer (fun k => by rw [here]; rfl)⟩
      rw [here]
      simp [State.move,State.resting,full,Place.packets,← Multiset.coe_add]
      abel
  case h_4 elem here =>
    split at stepped <;> cases Option.some.inj stepped <;>
      refine ⟨_,rfl,rfl,?_,.none rfl rfl (Multiset.zero_le _) (fun k => by rw [here]; rfl)⟩ <;> rw [here] <;>
      simp [State.move,State.resting,Place.packets,← Multiset.coe_add] <;> abel
  case h_5 here =>
    cases Option.some.inj stepped
    refine ⟨_,rfl,rfl,?_,.none rfl rfl ?_ (fun k => ?_)⟩ <;> rw [here] <;> split <;> rfl
  case h_6 here =>
    cases Option.some.inj stepped
    refine ⟨_,rfl,rfl,?_,.none rfl rfl ?_ (fun k => ?_)⟩ <;> rw [here] <;> split <;> rfl
  case h_7 k here =>
    cases Option.some.inj stepped
    refine ⟨_,rfl,rfl,?_,.none rfl rfl ?_ (fun k => ?_)⟩ <;> rw [here] <;> split <;> rfl
  case h_8 k here =>
    split at stepped
    · cases Option.some.inj stepped
      exact ⟨_,rfl,rfl,by rw [here]; rfl,.none rfl rfl (Multiset.zero_le _) (fun k => by rw [here]; rfl)⟩
    · rename_i elems rest full
      cases Option.some.inj stepped
      refine ⟨_,rfl,rfl,?_,.none rfl rfl (Multiset.zero_le _) (fun k => by rw [here]; rfl)⟩
      rw [here]
      simp [State.move,State.resting,full,Place.packets,← Multiset.coe_add]
      abel
  case h_9 k kept ooo here =>
    cases Option.some.inj stepped
    cases ooo with
    | nil =>
      refine ⟨_,rfl,rfl,?_,.none rfl rfl (by rw [here]; exact le_refl _) (fun k => by rw [here]; rfl)⟩
      rw [here]
      simp [State.move,State.resting,Place.packets]
    | cons elem more =>
      refine ⟨_,rfl,rfl,?_,.none rfl rfl (by rw [here]; exact le_refl _) (fun k => by rw [here]; rfl)⟩
      rw [here]
      simp only [List.isEmpty_cons,Bool.false_eq_true,if_false,State.move,State.resting,Place.packets,Option.elim,
        Multiset.coe_nil]
      abel
  case h_10 k elem rest kept ooo here =>
    cases Option.some.inj stepped
    by_cases spent : s.sendNonce k ≥ rejectAfterMessages
    · simp only [spent,if_true]
      refine ⟨_,rfl,rfl,?_,.spent k spent rfl rfl (by rw [here]; rfl) (by rw [here]; rfl) (fun j => ?_)⟩
      · rw [here]
        simp [State.move,State.resting,Place.packets]
      · rw [here]
        simp [Place.late]
    · simp only [spent,if_false]
      refine ⟨_,rfl,rfl,?_,.taken k (not_le.mp spent) rfl rfl ?_ (fun j => by rw [here]; rfl)⟩
      · rw [here]
        simp only [State.move,State.resting,Place.packets,List.map_append,List.map_cons,List.map_nil,consCoe,
          ← Multiset.coe_add,Multiset.coe_nil]
        abel
      · rw [here]
        simp [Place.nonces,keyed,← Multiset.coe_add]
  case h_11 k elem rest kept ooo here =>
    cases Option.some.inj stepped
    refine ⟨_,rfl,rfl,?_,.stored k rfl rfl (by rw [here]; rfl) (fun j => ?_)⟩
    · rw [here]
      simp only [State.move,State.resting,Place.packets,consCoe,← Multiset.coe_add,Multiset.coe_nil]
      abel
    · rw [here]
      simp [Place.late]
  case h_12 k kept again here =>
    have next : ∀ place : Place P, place = (if again then .top else .taking k) →
        place.nonces = 0 ∧ place.packets = 0 ∧ ∀ j, place.late j = 0 := by
      intro place same
      rw [same]
      cases again <;> exact ⟨rfl,rfl,fun _ => rfl⟩
    obtain ⟨noNonces,noPackets,quiet⟩ := next _ rfl
    dsimp only at stepped
    by_cases none : kept.isEmpty = true
    · rw [if_pos none] at stepped
      cases Option.some.inj stepped
      refine ⟨_,rfl,rfl,?_,.none rfl rfl (Multiset.zero_le _) (fun j => by rw [here]; rfl)⟩
      rw [here]
      simp [State.move,State.resting,Place.packets,List.isEmpty_iff.mp none]
    rw [if_neg none] at stepped
    by_cases running : a.running = true
    · rw [if_pos running] at stepped
      cases Option.some.inj stepped
      refine ⟨_,rfl,rfl,?_,.pushed k kept rfl rfl (by rw [here]; rfl) noNonces (fun j => by rw [here]; exact quiet j)⟩
      rw [here,noPackets]
      simp [State.move,State.resting,Place.packets,Function.comp_def,← Multiset.coe_add]
      abel
    · rw [if_neg running] at stepped
      cases Option.some.inj stepped
      refine ⟨_,rfl,rfl,?_,.none rfl rfl (by rw [noNonces]; exact Multiset.zero_le _)
        (fun j => by rw [here]; exact quiet j)⟩
      rw [here,noPackets]
      simp [State.move,State.resting,Place.packets,← Multiset.coe_add]
      abel

theorem effectFresh (few : n ≤ 2^13) {s t : State n P} (effect : Effect s t r next)
    (fresh : Fresh s.sendNonce s.outbound s.place) : Fresh t.sendNonce t.outbound t.place := by
  rw [effect.place]
  cases effect.nonces with
  | none counters sent fewer late =>
    rw [counters,sent]
    exact freshMove fresh fewer late
  | taken k small counters sent more late =>
    rw [counters,sent]
    exact freshAssign fresh small more late
  | spent k out counters sent kept free late =>
    rw [counters,sent]
    exact freshSpent few fresh out kept free late
  | stored k counters sent kept late =>
    rw [counters,sent]
    exact freshStored fresh kept late
  | pushed k kept counters sent held given late =>
    rw [counters,sent]
    exact freshPush fresh held given late

theorem effectConserved {s t : State n P} (effect : Effect s t r next) :
    t.resting + ∑ i, (t.place i).packets = s.resting + ∑ i, (s.place i).packets := by
  refine add_right_cancel (b := (s.place r).packets) ?_
  rw [effect.place,add_assoc,sumUpdate,add_assoc,← add_assoc,add_right_comm,effect.packets]
  abel

/- Every packet handed over is in exactly one place. -/
def Conserved (s : State n P) : Prop := s.resting + ∑ i, (s.place i).packets = (s.given : Multiset P)

/- What an action does: a routine moves, one starts with packets of its own, or the keypairs
or the queue change under the routines. -/
inductive Change (s t : State n P) : Prop where
  | moved (r : Fin n) (next : Place P) (effect : Effect s t r next)
  | begun (r : Fin n) (next : Place P) (elems : List P) (idle : s.place r = .idle)
      (after : t = {s with given := s.given ++ elems}.move r next) (packets : next.packets = elems)
      (nonces : next.nonces = 0) (late : ∀ j, next.late j = 0)
  | outside (place : t.place = s.place) (given : t.given = s.given) (resting : t.resting = s.resting)
      (sent : t.outbound = s.outbound)
      (counters : t.sendNonce = s.sendNonce ∨ ∃ k, t.sendNonce = Function.update s.sendNonce k rejectAfterMessages)

theorem stepChange {s t : State n P} {action : Action n P} (stepped : step s action = some t) : Change s t := by
  cases action with
  | advance r answers =>
    obtain ⟨next,effect⟩ := advanceEffect stepped
    exact .moved r next effect
  | rotate k =>
    cases Option.some.inj stepped
    exact .outside rfl rfl rfl rfl (.inl rfl)
  | expireKeypair k =>
    cases Option.some.inj stepped
    exact .outside rfl rfl rfl rfl (.inr ⟨k,rfl⟩)
  | flushStagedPackets =>
    simp only [step] at stepped
    split at stepped
    · contradiction
    · rename_i elems rest full
      cases Option.some.inj stepped
      refine .outside rfl rfl ?_ rfl (.inl rfl)
      simp only [State.resting,full,List.flatten_cons,← Multiset.coe_add]
      abel
  | stagePackets r elems =>
    simp only [step] at stepped
    split at stepped
    · rename_i here
      cases Option.some.inj stepped
      exact .begun r (.staging elems none) elems here rfl (by simp [Place.packets]) rfl (fun _ => rfl)
    · contradiction
  | sendStagedPackets r =>
    simp only [step] at stepped
    split at stepped
    · rename_i here
      cases Option.some.inj stepped
      exact .begun r .top [] here (by simp) rfl rfl (fun _ => rfl)
    · contradiction
  | sendKeepalive r elem running =>
    simp only [step] at stepped
    split at stepped
    · rename_i here
      split at stepped
      · cases Option.some.inj stepped
        exact .begun r (.keepalive elem) [elem] here rfl rfl rfl (fun _ => rfl)
      · cases Option.some.inj stepped
        exact .begun r .top [] here (by simp) rfl rfl (fun _ => rfl)
    · contradiction

theorem changeFresh (few : n ≤ 2^13) {s t : State n P} (change : Change s t)
    (fresh : Fresh s.sendNonce s.outbound s.place) : Fresh t.sendNonce t.outbound t.place := by
  cases change with
  | moved r next effect => exact effectFresh few effect fresh
  | begun r next elems idle after packets nonces late =>
    rw [after]
    refine freshMove fresh (by rw [nonces]; exact Multiset.zero_le _) (fun j => ?_)
    rw [late,idle]
    rfl
  | outside place given resting sent counters =>
    rw [place,sent]
    rcases counters with same | ⟨k,reset⟩
    · rw [same]
      exact fresh
    · rw [reset]
      exact freshReset fresh k

theorem changeConserved {s t : State n P} (change : Change s t) (conserved : Conserved s) : Conserved t := by
  unfold Conserved at conserved ⊢
  cases change with
  | moved r next effect => rw [effectConserved effect,conserved,effect.given]
  | begun r next elems idle after packets nonces late =>
    have sum : ∑ i, (Function.update s.place r next i).packets + (s.place r).packets =
        ∑ i, (s.place i).packets + next.packets := sumUpdate Place.packets s.place r next
    rw [idle,packets,show (Place.idle : Place P).packets = 0 from rfl,add_zero] at sum
    rw [after]
    simp only [State.move,State.resting,← Multiset.coe_add] at conserved ⊢
    rw [sum,← add_assoc,conserved]
  | outside place given resting sent counters => rw [resting,place,given,conserved]

end Hands

section Runs
variable {n : Nat} {P : Type}

theorem initialFresh : Fresh (initial n P).sendNonce (initial n P).outbound (initial n P).place := by
  have none : used ([] : List (Keypair × Nat × P)) (fun _ : Fin n => (Place.idle : Place P)) = 0 := by
    simp [used,Place.nonces]
  refine ⟨?_,fun k m mem => ?_,fun k => Nat.zero_le _⟩
  · rw [initial,none]
    exact Multiset.nodup_zero
  · rw [initial,none] at mem
    exact absurd mem (Multiset.notMem_zero _)

/- However the routines that send to a peer interleave, no nonce is used twice with a
keypair; the counter has room for 2^13 of them before it would wrap around. -/
theorem noncesUnique (few : n ≤ 2^13) (actions : List (Action n P)) {s : State n P}
    (ran : run step (initial n P) actions = some s) :
    (s.outbound.map (fun e => (e.1,e.2.1))).Nodup ∧ ∀ e ∈ s.outbound, e.2.1 < rejectAfterMessages := by
  have fresh : Fresh s.sendNonce s.outbound s.place :=
    runInvariant (I := fun s : State n P => Fresh s.sendNonce s.outbound s.place)
      (fun s a t _ before _ stepped => changeFresh few (stepChange stepped) before) initialFresh guardedTrivial ran
  refine ⟨?_,fun e mem => ?_⟩
  · exact Multiset.coe_nodup.mp (Multiset.nodup_of_le (Multiset.le_add_right _ _) fresh.nodup)
  · refine (fresh.below e.1 e.2.1 (Multiset.mem_add.mpr (.inl ?_))).2
    exact Multiset.mem_coe.mpr (List.mem_map.mpr ⟨e,mem,rfl⟩)

theorem twoRoutinesUnique :
    let idle : Answers := ⟨true,true,false⟩
    let actions : List (Action 2 Nat) := [.rotate (some 7),.stagePackets 0 [1,2],.advance 0 idle,.stagePackets 1 [3],
      .advance 1 idle,.advance 0 idle,.advance 1 idle,.advance 0 idle,.advance 1 idle,.advance 0 idle,.advance 1 idle,
      .advance 0 idle,.advance 1 idle,.advance 0 idle,.advance 1 idle,.advance 0 idle,.advance 1 idle,.advance 0 idle,
      .advance 1 idle,.advance 0 idle]
    ∃ s, run step (initial 2 Nat) actions = some s ∧ s.outbound = [(7,1,3),(7,0,1),(7,2,2)] ∧
      (s.outbound.map (fun e => (e.1,e.2.1))).Nodup ∧ ∀ e ∈ s.outbound, e.2.1 < rejectAfterMessages := by
  intro idle actions
  exact ⟨_,rfl,rfl,noncesUnique (by decide) actions rfl⟩

/- Nothing is sent twice, and nothing is lost but what the queue or the end of the peer drops. -/
theorem packetsConserved (actions : List (Action n P)) {s : State n P}
    (ran : run step (initial n P) actions = some s) :
    (s.staged.flatten : Multiset P) + (s.outbound.map (fun e => e.2.2) : List P) + (s.dropped : Multiset P) +
      ∑ r, (s.place r).packets = (s.given : Multiset P) := by
  have start : Conserved (initial n P) := by simp [Conserved,initial,State.resting,Place.packets]
  have conserved : Conserved s :=
    runInvariant (fun s a t _ before _ stepped => changeConserved (stepChange stepped) before) start guardedTrivial ran
  exact conserved

theorem twoRoutinesConserved :
    let idle : Answers := ⟨true,true,false⟩
    let actions : List (Action 2 Nat) := [.rotate (some 7),.stagePackets 0 [1,2],.advance 0 idle,.stagePackets 1 [3],
      .advance 1 idle,.flushStagedPackets]
    ∃ s, run step (initial 2 Nat) actions = some s ∧ s.dropped = [1,2] ∧
      (s.staged.flatten : Multiset Nat) + (s.outbound.map (fun e => e.2.2) : List Nat) + (s.dropped : Multiset Nat) +
        ∑ r, (s.place r).packets = (s.given : Multiset Nat) := by
  intro idle actions
  exact ⟨_,rfl,rfl,packetsConserved actions rfl⟩

end Runs

end WebosWireguard.SendQueue
