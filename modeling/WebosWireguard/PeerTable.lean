import Mathlib.Data.List.Nodup
import WebosWireguard.TrieUpdate
import WebosWireguard.OutputRun

/-! The table of allowed addresses: a trie for each kind of address and every peer's list of
its own prefixes, against a plain list of who owns which prefix. The table's lock makes the
calls follow one another. Prefixes come from a parser that refuses a length past the end of
the address. -/
namespace WebosWireguard.PeerTable
open AddressBits PeerTrie TrieInvariant TrieUpdate SubnetTable OutputRun TransitionRun

structure Prefix where
  size : Size
  addr : Addr size
  bits : Nat
  valid : bits ≤ size.width
  deriving DecidableEq

def Prefix.masked (p : Prefix) : Prefix := ⟨p.size,keepFirst p.bits p.addr,p.bits,p.valid⟩

variable {P : Type} [DecidableEq P]

structure AllowedIPs (P : Type) where
  trie : (size : Size) → Trie size P
  entries : P → List Prefix

def empty : AllowedIPs P := ⟨fun _ => .nil,fun _ => []⟩

def addToPeerEntries (peer : P) (node : Prefix) (entries : P → List Prefix) : P → List Prefix :=
  Function.update entries peer (entries peer ++ [node])

def removeFromPeerEntries (owner : Option P) (node : Prefix) (entries : P → List Prefix) : P → List Prefix :=
  match owner with
  | none => entries
  | some peer => Function.update entries peer ((entries peer).erase node)

def insert (table : AllowedIPs P) (p : Prefix) (peer : P) : Option (AllowedIPs P) := do
  let (after,owner) ← Trie.insert p.addr p.bits peer (table.trie p.size)
  let entries := addToPeerEntries peer p.masked (removeFromPeerEntries owner p.masked table.entries)
  some ⟨Function.update table.trie p.size after,entries⟩

/- `remove` on a node, told by its prefix. -/
def removeNode (table : AllowedIPs P) (node : Prefix) : Option (AllowedIPs P) := do
  let owner := Trie.owner node.addr node.bits (table.trie node.size)
  let (after,_) ← Trie.remove node.addr node.bits (table.trie node.size)
  some ⟨Function.update table.trie node.size after,removeFromPeerEntries owner node table.entries⟩

def remove (table : AllowedIPs P) (p : Prefix) (peer : P) : Option (AllowedIPs P) := do
  let (found,exact) ← Trie.nodePlacement p.addr p.bits .nil (table.trie p.size)
  match found with
  | .nil => some table
  | .node owner bits _ _ _ =>
    if !exact || some peer ≠ owner then some table
    else removeNode table ⟨p.size,bits,p.bits,p.valid⟩

def removeByPeer (table : AllowedIPs P) (peer : P) : Option (AllowedIPs P) :=
  run removeNode table (table.entries peer)

def lookup (table : AllowedIPs P) {size : Size} (ip : Addr size) : Option (Option P) :=
  (table.trie size).lookup ip none

def entriesForPeer (table : AllowedIPs P) (peer : P) : List Prefix := table.entries peer

inductive Call (P : Type) where
  | insert (p : Prefix) (peer : P)
  | remove (p : Prefix) (peer : P)
  | removeByPeer (peer : P)

def apply (table : AllowedIPs P) : Call P → Option (AllowedIPs P)
  | .insert p peer => insert table p peer
  | .remove p peer => remove table p peer
  | .removeByPeer peer => removeByPeer table peer

/-! What the table is for: who owns which prefix, in the order the prefixes were given. -/

abbrev Owners (P : Type) := List (Prefix × P)

def assign (owners : Owners P) : Call P → Owners P
  | .insert p peer => owners.filter (fun o => o.1 ≠ p.masked) ++ [(p.masked,peer)]
  | .remove p peer => owners.filter (fun o => o ≠ (p.masked,peer))
  | .removeByPeer peer => owners.filter (fun o => o.2 ≠ peer)

def owned (owners : Owners P) (peer : P) : List Prefix := (owners.filter (fun o => o.2 = peer)).map Prod.fst

structure Tracks (table : AllowedIPs P) (owners : Owners P) : Prop where
  valid : ∀ size, Valid (table.trie size)
  held : ∀ (p : Prefix) peer, Has p.addr p.bits (some peer) (table.trie p.size) ↔ (p,peer) ∈ owners
  single : (owners.map Prod.fst).Nodup
  listed : ∀ peer, table.entries peer = owned owners peer

theorem emptyTracks : Tracks (empty : AllowedIPs P) [] :=
  ⟨fun _ => .nil,fun _ _ => by simp [empty,Has],List.nodup_nil,fun _ => rfl⟩

section Update
omit [DecidableEq P]

theorem ownersUnique {owners : Owners P} (single : (owners.map Prod.fst).Nodup) {p : Prefix} {peer other : P}
    (left : (p,peer) ∈ owners) (right : (p,other) ∈ owners) : peer = other := by
  have same := List.inj_on_of_nodup_map single left right rfl
  exact congrArg Prod.snd same

/- A changed trie holds what is held in it, the other tries what they held. -/
theorem updateHas {trie : (size : Size) → Trie size P} {size : Size} {after : Trie size P} {q : Prefix} {peer : P}
    {R : Prefix → Prop}
    (here : ∀ addr bits valid, Has addr bits (some peer) after ↔ R ⟨size,addr,bits,valid⟩)
    (there : q.size ≠ size → (Has q.addr q.bits (some peer) (trie q.size) ↔ R q)) :
    Has q.addr q.bits (some peer) (Function.update trie size after q.size) ↔ R q := by
  obtain ⟨own,addr,bits,valid⟩ := q
  by_cases same : own = size
  · subst same
    rw [Function.update_self]
    exact here addr bits valid
  · rw [Function.update_of_ne same]
    exact there same

theorem updateValid {trie : (size : Size) → Trie size P} {size : Size} {after : Trie size P}
    (valid : ∀ other, Valid (trie other)) (changed : Valid after) (other : Size) :
    Valid (Function.update trie size after other) := by
  by_cases same : other = size
  · subst same
    rw [Function.update_self]
    exact changed
  · rw [Function.update_of_ne same]
    exact valid other

end Update

section Steps
variable {table : AllowedIPs P} {owners : Owners P} (tracks : Tracks table owners)
include tracks

theorem ownedNodup (peer : P) : (owned owners peer).Nodup :=
  tracks.single.sublist (List.filter_sublist.map Prod.fst)

/- Taking a prefix out of its owner's list takes it out of all of them. -/
theorem removedEntries {owner : Option P} {node : Prefix} (belongs : ∀ q, owner = some q ↔ (node,q) ∈ owners)
    (peer : P) : removeFromPeerEntries owner node table.entries peer =
      owned (owners.filter (fun o => o.1 ≠ node)) peer := by
  have filtered : owned (owners.filter (fun o => o.1 ≠ node)) peer = (owned owners peer).filter (· != node) := by
    rw [owned,owned,List.filter_map,List.filter_filter,List.filter_filter]
    congr 1
    refine List.filter_congr (fun o _ => ?_)
    by_cases here : o.1 = node <;> simp [here]
  have others : (node,peer) ∉ owners → (owned owners peer).filter (· != node) = owned owners peer := by
    intro missing
    rw [List.filter_eq_self]
    intro q mem
    obtain ⟨o,inside,rfl⟩ := List.mem_map.mp mem
    obtain ⟨here,mine⟩ := List.mem_filter.mp inside
    rw [decide_eq_true_eq] at mine
    rw [bne_iff_ne]
    intro same
    exact missing (by rw [← same,← mine]; exact here)
  rw [filtered]
  cases owner with
  | none =>
    rw [others (fun mem => absurd ((belongs peer).mpr mem) (by simp))]
    exact tracks.listed peer
  | some q =>
    by_cases same : peer = q
    · subst same
      simp only [removeFromPeerEntries,Function.update_self,tracks.listed]
      exact (ownedNodup tracks peer).erase_eq_filter node
    · rw [others (fun mem => same (Option.some.inj ((belongs peer).mpr mem)).symm)]
      simp only [removeFromPeerEntries,Function.update_of_ne same,tracks.listed]

theorem removeNodeTracks {node : Prefix} {peer : P} (mem : (node,peer) ∈ owners) :
    ∃ u, removeNode table node = some u ∧ Tracks u (owners.filter (fun o => o.1 ≠ node)) := by
  have has := (tracks.held node peer).mpr mem
  obtain ⟨after,bare,ran,removed⟩ := removeRemoved (tracks.valid node.size) has
  have owner := ownerOfHas (tracks.valid node.size) has
  have belongs : ∀ q, some peer = some q ↔ (node,q) ∈ owners := by
    intro q
    constructor
    · intro same
      rw [← Option.some.inj same]
      exact mem
    · intro other
      rw [ownersUnique tracks.single mem other]
  refine ⟨_,by rw [removeNode,ran]; rfl,updateValid tracks.valid removed.valid,fun q p => ?_,
    tracks.single.sublist (List.filter_sublist.map Prod.fst),fun p => ?_⟩
  · refine updateHas (R := fun q => (q,p) ∈ owners.filter (fun o => o.1 ≠ node)) (fun addr bits valid => ?_)
      (fun apart => ?_)
    · rw [removed.entries,List.mem_filter,← tracks.held ⟨node.size,addr,bits,valid⟩ p,and_comm]
      refine and_congr_right (fun _ => ?_)
      obtain ⟨size,own,length,short⟩ := node
      simp [imp_iff_not_or]
    · rw [tracks.held,List.mem_filter]
      have other : q ≠ node := fun same => apart (by rw [same])
      simp [other]
  · rw [owner]
    exact removedEntries tracks belongs p

theorem removeNodesTracks {nodes : List Prefix} (distinct : nodes.Nodup)
    (present : ∀ node ∈ nodes, ∃ peer, (node,peer) ∈ owners) :
    ∃ u, run removeNode table nodes = some u ∧ Tracks u (owners.filter (fun o => o.1 ∉ nodes)) := by
  induction nodes generalizing table owners with
  | nil => exact ⟨table,rfl,by simpa using tracks⟩
  | cons node rest ih =>
    obtain ⟨fresh,distinct⟩ := List.nodup_cons.mp distinct
    obtain ⟨peer,mem⟩ := present node (by simp)
    obtain ⟨u,stepped,next⟩ := removeNodeTracks tracks mem
    obtain ⟨v,ran,last⟩ := ih next distinct (by
      intro other inside
      obtain ⟨q,there⟩ := present other (List.mem_cons_of_mem node inside)
      have apart : other ≠ node := fun same => fresh (same ▸ inside)
      exact ⟨q,List.mem_filter.mpr ⟨there,by simpa using apart⟩⟩)
    refine ⟨v,by rw [run,stepped,Option.bind_some,ran],?_⟩
    rw [List.filter_filter] at last
    convert last using 3
    simp [Bool.and_comm]

theorem removeByPeerTracks (peer : P) :
    ∃ u, removeByPeer table peer = some u ∧ Tracks u (assign owners (.removeByPeer peer)) := by
  have own : ∀ node, node ∈ owned owners peer ↔ (node,peer) ∈ owners := by
    intro node
    simp [owned]
  obtain ⟨u,ran,after⟩ := removeNodesTracks tracks (ownedNodup tracks peer)
    (fun node mem => ⟨peer,(own node).mp mem⟩)
  refine ⟨u,by rw [removeByPeer,tracks.listed]; exact ran,?_⟩
  have same : owners.filter (fun o => o.1 ∉ owned owners peer) = assign owners (.removeByPeer peer) := by
    refine List.filter_congr (fun o mem => ?_)
    rw [decide_eq_decide,own]
    refine not_congr ⟨fun mine => ownersUnique tracks.single mem mine,fun mine => ?_⟩
    rw [← mine]
    exact mem
  rw [← same]
  exact after

theorem removeTracks (p : Prefix) (peer : P) :
    ∃ u, remove table p peer = some u ∧ Tracks u (assign owners (.remove p peer)) := by
  have idle : (p.masked,peer) ∉ owners → assign owners (.remove p peer) = owners := by
    intro missing
    refine List.filter_eq_self.mpr (fun o mem => ?_)
    rw [decide_eq_true_eq]
    intro same
    exact missing (same ▸ mem)
  unfold remove
  rcases placementExact p.addr p.valid (tracks.valid p.size) .nil with
    ⟨owner,child0,child1,ran,has⟩ | ⟨⟨last,ran⟩,missing⟩
  · rw [ran]
    simp only [bind,Option.bind,Bool.not_true,Bool.false_or]
    by_cases mine : some peer = owner
    · subst mine
      have mem : (p.masked,peer) ∈ owners := (tracks.held p.masked peer).mp has
      obtain ⟨u,removed,next⟩ := removeNodeTracks tracks mem
      refine ⟨u,by rw [if_neg (by simp)]; exact removed,?_⟩
      have same : owners.filter (fun o => o.1 ≠ p.masked) = assign owners (.remove p peer) := by
        refine List.filter_congr (fun o here => ?_)
        rw [decide_eq_decide]
        refine not_congr ⟨fun key => ?_,fun both => congrArg Prod.fst both⟩
        have again : (p.masked,o.2) ∈ owners := by rw [← key]; exact here
        exact Prod.ext key (ownersUnique tracks.single again mem)
      rw [← same]
      exact next
    · have missing : (p.masked,peer) ∉ owners := by
        intro mem
        exact mine (hasUnique (tracks.valid p.size) ((tracks.held p.masked peer).mpr mem) has)
      rw [idle missing,if_pos (by simpa using mine)]
      exact ⟨table,rfl,tracks⟩
  · have absent : (p.masked,peer) ∉ owners := fun mem =>
      missing (some peer) ((tracks.held p.masked peer).mpr mem)
    rw [idle absent,ran]
    refine ⟨table,?_,tracks⟩
    cases last <;> rfl

theorem insertTracks (p : Prefix) (peer : P) :
    ∃ u, insert table p peer = some u ∧ Tracks u (assign owners (.insert p peer)) := by
  obtain ⟨after,old,ran,inserted⟩ := insertInserted p.addr peer p.valid (tracks.valid p.size)
  have belongs : ∀ q, old = some q ↔ (p.masked,q) ∈ owners := by
    intro q
    rw [inserted.owner q]
    exact tracks.held p.masked q
  refine ⟨_,by rw [insert,ran]; rfl,updateValid tracks.valid inserted.valid,fun q other => ?_,?_,fun other => ?_⟩
  · refine updateHas (R := fun q => (q,other) ∈ assign owners (.insert p peer)) (fun addr bits valid => ?_)
      (fun apart => ?_)
    · have held := tracks.held ⟨p.size,addr,bits,valid⟩ other
      have key : (⟨p.size,addr,bits,valid⟩ : Prefix) = p.masked ↔ addr = keepFirst p.bits p.addr ∧ bits = p.bits := by
        simp [Prefix.masked]
      rw [inserted.entries,held,assign,List.mem_append,List.mem_filter,List.mem_singleton,decide_eq_true_eq,
        Prod.mk.injEq,← key]
      tauto
    · rw [tracks.held,assign,List.mem_append,List.mem_filter,List.mem_singleton,decide_eq_true_eq]
      have key : q ≠ p.masked := fun same => apart (by rw [same]; rfl)
      simp [key]
  · rw [assign,List.map_append,List.nodup_append]
    refine ⟨tracks.single.sublist (List.filter_sublist.map Prod.fst),List.nodup_singleton _,?_⟩
    intro key inside other alone
    obtain ⟨o,mem,rfl⟩ := List.mem_map.mp inside
    rw [List.map_singleton,List.mem_singleton] at alone
    rw [alone]
    simpa using (List.mem_filter.mp mem).2
  · have gone := removedEntries tracks belongs other
    simp only [owned,assign,List.filter_append,List.map_append] at gone ⊢
    by_cases same : other = peer
    · subst same
      simp only [addToPeerEntries,Function.update_self,gone]
      simp
    · simp only [addToPeerEntries,Function.update_of_ne same,gone]
      simp [Ne.symm same]

end Steps

theorem applyTracks (table : AllowedIPs P) (owners : Owners P) (call : Call P) (tracks : Tracks table owners) :
    ∃ u, apply table call = some u ∧ Tracks u (assign owners call) := by
  cases call with
  | insert p peer => exact insertTracks tracks p peer
  | remove p peer => exact removeTracks tracks p peer
  | removeByPeer peer => exact removeByPeerTracks tracks peer

def Prefix.subnet (p : Prefix) : Subnet p.size.width where
  base := (keepFirst p.bits p.addr).toNat
  length := p.bits
  bounded := (keepFirst p.bits p.addr).isLt
  short := p.valid
  aligned := keepFirstAligned p.valid

/- The owners of prefixes of one kind, as routes to them. -/
def route : (size : Size) → Prefix × P → Option (Route size.width P)
  | .ipv4,(⟨.ipv4,addr,bits,valid⟩,peer) => some ⟨Prefix.subnet ⟨.ipv4,addr,bits,valid⟩,peer⟩
  | .ipv6,(⟨.ipv6,addr,bits,valid⟩,peer) => some ⟨Prefix.subnet ⟨.ipv6,addr,bits,valid⟩,peer⟩
  | _,_ => none

def routes (size : Size) (owners : Owners P) : Table size.width P := owners.filterMap (route size)

section Lookup
omit [DecidableEq P]
variable {size : Size} {ip : Addr size} {owners : Owners P}

theorem memRoutes {r : Route size.width P} : r ∈ routes size owners ↔
    ∃ addr bits valid peer, ((⟨size,addr,bits,valid⟩ : Prefix),peer) ∈ owners ∧
      r = ⟨Prefix.subnet ⟨size,addr,bits,valid⟩,peer⟩ := by
  rw [routes,List.mem_filterMap]
  constructor
  · intro given
    obtain ⟨o,mem,found⟩ := given
    obtain ⟨⟨kind,addr,bits,valid⟩,peer⟩ := o
    cases size <;> cases kind <;> simp only [route,reduceCtorEq,Option.some.injEq] at found
    · exact ⟨addr,bits,valid,peer,mem,found.symm⟩
    · exact ⟨addr,bits,valid,peer,mem,found.symm⟩
  · intro given
    obtain ⟨addr,bits,valid,peer,mem,rfl⟩ := given
    refine ⟨_,mem,?_⟩
    cases size <;> rfl

theorem subnetCovers {addr : Addr size} {bits : Nat} {valid : bits ≤ size.width} :
    (Prefix.subnet ⟨size,addr,bits,valid⟩).Covers ip.toNat ↔ Agree bits addr ip := by
  rw [agreeDiv valid,Subnet.Covers]
  dsimp only [Prefix.subnet]
  rw [keepFirstDiv valid]
  exact eq_comm

end Lookup

theorem lookupTracks {table : AllowedIPs P} {owners : Owners P} (tracks : Tracks table owners) {size : Size}
    (ip : Addr size) : lookup table ip =
      some ((SubnetTable.lookup (routes size owners) ip.toNat).map Route.hop) := by
  obtain ⟨res,ran,result⟩ := lookupLongest ip (tracks.valid size) none
  rw [lookup,ran]
  congr 1
  rcases result with ⟨q,rfl,bits,cidr,has,agree,longest⟩ | ⟨rfl,unmatched⟩
  · obtain ⟨short,masked⟩ := hasShort (tracks.valid size) has
    have mem := (tracks.held ⟨size,bits,cidr,short⟩ q).mp has
    have covers : (Prefix.subnet ⟨size,bits,cidr,short⟩).Covers ip.toNat := subnetCovers.mpr agree
    obtain ⟨best,found⟩ := lookupExists (memRoutes.mpr ⟨bits,cidr,short,q,mem,rfl⟩) covers
    obtain ⟨here,coversBest,longer⟩ := lookupSome found
    obtain ⟨addr,length,valid,peer,memBest,rfl⟩ := memRoutes.mp here
    have hasBest : Has addr length (some peer) (table.trie size) :=
      (tracks.held ⟨size,addr,length,valid⟩ peer).mpr memBest
    have agreeBest := subnetCovers.mp coversBest
    have same : length = cidr := Nat.le_antisymm (longest addr length peer hasBest agreeBest)
      (longer _ (memRoutes.mpr ⟨bits,cidr,short,q,mem,rfl⟩) covers)
    subst same
    have equal : addr = bits := by
      rw [← (hasShort (tracks.valid size) hasBest).2,← masked]
      exact (keepFirstUnique valid).mpr (agreeBest.trans agree.symm)
    subst equal
    rw [found,ownersUnique tracks.single mem memBest]
    rfl
  · cases found : SubnetTable.lookup (routes size owners) ip.toNat with
    | none => rfl
    | some best =>
      obtain ⟨here,covers,_⟩ := lookupSome found
      obtain ⟨addr,length,valid,peer,mem,rfl⟩ := memRoutes.mp here
      have has := (tracks.held ⟨size,addr,length,valid⟩ peer).mpr mem
      exact absurd (subnetCovers.mp covers) (unmatched addr length peer has)

/- After any calls the table answers an address with the owner of the longest prefix given
for it, and lists a peer's prefixes in the order they came to the peer. -/
theorem allowedIpsFollowOwners (calls : List (Call P)) : ∃ table, run apply empty calls = some table ∧
    (∀ (size : Size) (ip : Addr size), lookup table ip =
      some ((SubnetTable.lookup (routes size (calls.foldl assign [])) ip.toNat).map Route.hop)) ∧
    ∀ peer, entriesForPeer table peer = owned (calls.foldl assign []) peer := by
  obtain ⟨table,ran,tracks⟩ := runSimulated applyTracks emptyTracks calls
  exact ⟨table,ran,fun _ ip => lookupTracks tracks ip,tracks.listed⟩

/-! How much a trie stores beyond the prefixes given. -/

section Count
omit [DecidableEq P]
variable {size : Size} {t : Trie size P}

def nodes : Trie size P → Nat
  | .nil => 0
  | .node _ _ _ child0 child1 => nodes child0 + nodes child1 + 1

def contents : Trie size P → List (Nat × Nat × P)
  | .nil => []
  | .node peer bits cidr child0 child1 =>
    (peer.map (fun p => (bits.toNat,cidr,p))).toList ++ contents child0 ++ contents child1

theorem memContents {base cidr : Nat} {peer : P} : (base,cidr,peer) ∈ contents t ↔
    ∃ bits : Addr size, bits.toNat = base ∧ Has bits cidr (some peer) t := by
  induction t with
  | nil => simp [contents,Has]
  | node owner own length child0 child1 ih0 ih1 =>
    rw [contents,List.mem_append,List.mem_append,ih0,ih1,Option.mem_toList,Option.map_eq_some_iff]
    simp only [Has,and_or_left,exists_or,Prod.mk.injEq,or_assoc]
    refine or_congr_left ⟨fun given => ?_,fun given => ?_⟩
    · obtain ⟨p,rfl,same,rfl,rfl⟩ := given
      exact ⟨own,same,rfl,rfl,rfl⟩
    · obtain ⟨bits,same,rfl,rfl,rfl⟩ := given
      exact ⟨peer,rfl,same,rfl,rfl⟩

theorem contentsNodup (valid : Valid t) : (contents t).Nodup := by
  induction valid with
  | nil => exact List.nodup_nil
  | @node owner own length child0 child1 narrow masked branching side0 side1 valid0 valid1 ih0 ih1 =>
    rw [contents,List.append_assoc,List.nodup_append]
    refine ⟨?_,List.nodup_append.mpr ⟨ih0,ih1,?_⟩,?_⟩
    · cases owner <;> simp
    · intro x left y right same
      obtain ⟨base,cidr,peer⟩ := x
      subst same
      obtain ⟨bits,rfl,has0⟩ := memContents.mp left
      obtain ⟨again,same,has1⟩ := memContents.mp right
      have equal := BitVec.eq_of_toNat_eq same
      subst equal
      have bit := (underHas valid0 side0 has0).2.2
      exact absurd (bit.symm.trans (underHas valid1 side1 has1).2.2) (by decide)
    · intro x here y below same
      subst same
      obtain ⟨p,_,rfl⟩ := Option.map_eq_some_iff.mp (Option.mem_toList.mp here)
      rcases List.mem_append.mp below with left | right
      · obtain ⟨bits,same,has⟩ := memContents.mp left
        exact notBelow valid0 (BitVec.eq_of_toNat_eq same ▸ side0) has
      · obtain ⟨bits,same,has⟩ := memContents.mp right
        exact notBelow valid1 (BitVec.eq_of_toNat_eq same ▸ side1) has

/- Nodes that belong to no peer have two children, so there are fewer of them than of the others. -/
theorem nodesBound (valid : Valid t) (full : t.isNil = false) : nodes t + 1 ≤ 2 * (contents t).length := by
  induction valid with
  | nil => exact absurd full (by simp [Trie.isNil])
  | @node owner own length child0 child1 narrow masked branching side0 side1 valid0 valid1 ih0 ih1 =>
    have below : ∀ {child : Trie size P}, (child.isNil = false → nodes child + 1 ≤ 2 * (contents child).length) →
        nodes child ≤ 2 * (contents child).length := by
      intro child known
      cases child with
      | nil => exact Nat.zero_le _
      | node => exact le_trans (Nat.le_succ _) (known rfl)
    have left := below ih0
    have right := below ih1
    rw [nodes,contents,List.length_append,List.length_append]
    cases owner with
    | none =>
      obtain ⟨full0,full1⟩ := branching rfl
      have first := ih0 full0
      have second := ih1 full1
      simp only [Option.map_none,Option.toList_none,List.length_nil]
      omega
    | some p =>
      simp only [Option.map_some,Option.toList_some,List.length_singleton]
      omega

end Count

def ofSize (size : Size) (owners : Owners P) : Owners P := owners.filter (fun o => o.1.size = size)

theorem contentsLength {table : AllowedIPs P} {owners : Owners P} (tracks : Tracks table owners) (size : Size) :
    (contents (table.trie size)).length = (ofSize size owners).length := by
  have distinct : ((ofSize size owners).map (fun o => (o.1.addr.toNat,o.1.bits,o.2))).Nodup := by
    refine List.Nodup.map_on ?_ ((List.Nodup.of_map Prod.fst tracks.single).filter _)
    intro x left y right same
    obtain ⟨⟨size0,addr0,bits0,valid0⟩,peer0⟩ := x
    obtain ⟨⟨size1,addr1,bits1,valid1⟩,peer1⟩ := y
    have kind0 := (List.mem_filter.mp left).2
    have kind1 := (List.mem_filter.mp right).2
    simp only [decide_eq_true_eq] at kind0 kind1
    subst kind0 kind1
    simp only [Prod.mk.injEq] at same
    obtain ⟨addrs,rfl,rfl⟩ := same
    rw [BitVec.eq_of_toNat_eq addrs]
  have perm : (contents (table.trie size)).Perm ((ofSize size owners).map (fun o => (o.1.addr.toNat,o.1.bits,o.2))) := by
    refine (List.perm_ext_iff_of_nodup (contentsNodup (tracks.valid size)) distinct).mpr (fun x => ?_)
    obtain ⟨base,cidr,peer⟩ := x
    rw [memContents,List.mem_map]
    constructor
    · intro given
      obtain ⟨bits,rfl,has⟩ := given
      have short := (hasShort (tracks.valid size) has).1
      have mem := (tracks.held ⟨size,bits,cidr,short⟩ peer).mp has
      exact ⟨_,List.mem_filter.mpr ⟨mem,by simp⟩,rfl⟩
    · intro given
      obtain ⟨o,mem,same⟩ := given
      obtain ⟨⟨kind,addr,bits,valid⟩,q⟩ := o
      obtain ⟨inside,here⟩ := List.mem_filter.mp mem
      simp only [decide_eq_true_eq] at here
      subst here
      simp only [Prod.mk.injEq] at same
      obtain ⟨rfl,rfl,rfl⟩ := same
      exact ⟨addr,rfl,(tracks.held ⟨kind,addr,bits,valid⟩ q).mpr inside⟩
  rw [perm.length_eq,List.length_map]

/- A trie of n prefixes has at most 2n-1 nodes. -/
theorem allowedIpsCompact (calls : List (Call P)) : ∃ table, run apply empty calls = some table ∧
    ∀ size, nodes (table.trie size) ≤ 2 * (ofSize size (calls.foldl assign [])).length - 1 := by
  obtain ⟨table,ran,tracks⟩ := runSimulated applyTracks emptyTracks calls
  refine ⟨table,ran,fun size => ?_⟩
  rw [← contentsLength tracks]
  cases full : (table.trie size).isNil with
  | true =>
    rw [nilOfIsNil full]
    exact Nat.zero_le _
  | false =>
    have bound := nodesBound (tracks.valid size) full
    omega

end WebosWireguard.PeerTable
