import WebosWireguard.PeerTrie

/-! What holds of every trie the operations build: prefixes are masked, a child's prefix
extends its parent's by the bit of its side, and a node without a peer has two children.
Placement and lookup are read against the prefixes a trie holds. -/
namespace WebosWireguard.TrieInvariant
open AddressBits PeerTrie PeerTrie.Trie

variable {size : Size} {P : Type} {t : Trie size P} {bits ip : Addr size} {cidr : Nat}

def Under (bits : Addr size) (cidr : Nat) (side : Bool) : Trie size P → Prop
  | nil => True
  | node _ own length _ _ => cidr < length ∧ Agree cidr bits own ∧ own.getMsbD cidr = side

inductive Valid : Trie size P → Prop where
  | nil : Valid nil
  | node {peer bits cidr child0 child1} (short : cidr ≤ size.width) (masked : keepFirst cidr bits = bits)
      (branching : peer = none → child0.isNil = false ∧ child1.isNil = false)
      (side0 : Under bits cidr false child0) (side1 : Under bits cidr true child1)
      (valid0 : Valid child0) (valid1 : Valid child1) : Valid (node peer bits cidr child0 child1)

def Has (bits : Addr size) (cidr : Nat) (owner : Option P) : Trie size P → Prop
  | nil => False
  | node peer own length child0 child1 =>
    (own = bits ∧ length = cidr ∧ peer = owner) ∨ Has bits cidr owner child0 ∨ Has bits cidr owner child1

/- A prefix under a node extends the node's prefix by the bit of its side. -/
theorem underHas {owner : Option P} (valid : Valid t) {above : Addr size} {length : Nat} {side : Bool}
    (under : Under above length side t) (has : Has bits cidr owner t) :
    length < cidr ∧ Agree length above bits ∧ bits.getMsbD length = side := by
  induction valid generalizing above length side with
  | nil => exact has.elim
  | node short masked branching side0 side1 valid0 valid1 ih0 ih1 =>
    obtain ⟨longer,agree,bit⟩ := under
    have inside : ∀ {child below} (lengthBelow : length < below),
        (below < cidr ∧ Agree below child bits ∧ (Agree length above child) ∧ child.getMsbD length = side) →
        length < cidr ∧ Agree length above bits ∧ bits.getMsbD length = side := by
      intro child below lengthBelow given
      obtain ⟨lower,same,agreeChild,bitChild⟩ := given
      exact ⟨by omega,agreeChild.trans (same.mono (by omega)),by rw [← same length lengthBelow,bitChild]⟩
    rcases has with here | left | right
    · obtain ⟨rfl,rfl,_⟩ := here
      exact ⟨longer,agree,bit⟩
    · obtain ⟨lower,same,_⟩ := ih0 side0 left
      exact inside longer ⟨lower,same,agree,bit⟩
    · obtain ⟨lower,same,_⟩ := ih1 side1 right
      exact inside longer ⟨lower,same,agree,bit⟩

theorem notBelow {owner : Option P} {side : Bool} (valid : Valid t) (under : Under bits cidr side t) :
    ¬ Has bits cidr owner t :=
  fun has => absurd (underHas valid under has).1 (lt_irrefl cidr)

theorem hasRoot {peer owner : Option P} {own : Addr size} {length : Nat} {child0 child1 : Trie size P}
    (valid : Valid (node peer own length child0 child1))
    (has : Has bits cidr owner (node peer own length child0 child1)) : length ≤ cidr ∧ Agree length own bits := by
  cases valid with
  | node short masked branching side0 side1 valid0 valid1 =>
    rcases has with here | left | right
    · obtain ⟨rfl,rfl,_⟩ := here
      exact ⟨le_refl _,fun _ _ => rfl⟩
    · obtain ⟨longer,agree,_⟩ := underHas valid0 side0 left
      exact ⟨le_of_lt longer,agree⟩
    · obtain ⟨longer,agree,_⟩ := underHas valid1 side1 right
      exact ⟨le_of_lt longer,agree⟩

theorem hasShort {owner : Option P} (valid : Valid t) (has : Has bits cidr owner t) :
    cidr ≤ size.width ∧ keepFirst cidr bits = bits := by
  induction valid with
  | nil => exact has.elim
  | node short masked branching side0 side1 valid0 valid1 ih0 ih1 =>
    rcases has with here | left | right
    · obtain ⟨rfl,rfl,_⟩ := here
      exact ⟨short,masked⟩
    · exact ih0 left
    · exact ih1 right

/- A prefix stands in one place of a trie. -/
theorem hasUnique {owner other : Option P} (valid : Valid t) (has : Has bits cidr owner t)
    (again : Has bits cidr other t) : owner = other := by
  induction valid with
  | nil => exact has.elim
  | node short masked branching side0 side1 valid0 valid1 ih0 ih1 =>
    rcases has with here | left | right
    · obtain ⟨rfl,rfl,rfl⟩ := here
      rcases again with same | left | right
      · exact same.2.2
      · exact (notBelow valid0 side0 left).elim
      · exact (notBelow valid1 side1 right).elim
    · obtain ⟨longer,_,bit⟩ := underHas valid0 side0 left
      rcases again with same | other | right
      · obtain ⟨rfl,rfl,_⟩ := same
        exact absurd longer (lt_irrefl _)
      · exact ih0 left other
      · exact absurd ((underHas valid1 side1 right).2.2.symm.trans bit) (by decide)
    · obtain ⟨longer,_,bit⟩ := underHas valid1 side1 right
      rcases again with same | left | other
      · obtain ⟨rfl,rfl,_⟩ := same
        exact absurd longer (lt_irrefl _)
      · exact absurd ((underHas valid0 side0 left).2.2.symm.trans bit) (by decide)
      · exact ih1 right other

theorem ownerHas {peer : P} (found : owner bits cidr t = some peer) : Has bits cidr (some peer) t := by
  induction t with
  | nil => exact absurd found (by simp [owner])
  | node q own length child0 child1 ih0 ih1 =>
    rw [owner] at found
    by_cases here : own = bits ∧ length = cidr
    · rw [if_pos here] at found
      exact .inl ⟨here.1,here.2,found⟩
    · rw [if_neg here,Option.or_eq_some_iff] at found
      rcases found with left | right
      · exact .inr (.inl (ih0 left))
      · exact .inr (.inr (ih1 right.2))

theorem ownerOfHas {peer : P} (valid : Valid t) (has : Has bits cidr (some peer) t) :
    owner bits cidr t = some peer := by
  induction valid with
  | nil => exact has.elim
  | @node q own length child0 child1 short masked branching side0 side1 valid0 valid1 ih0 ih1 =>
    rw [owner]
    by_cases here : own = bits ∧ length = cidr
    · obtain ⟨rfl,rfl⟩ := here
      rcases has with same | left | right
      · rw [if_pos ⟨rfl,rfl⟩,same.2.2]
      · exact (notBelow valid0 side0 left).elim
      · exact (notBelow valid1 side1 right).elim
    · rw [if_neg here]
      rcases has with same | left | right
      · exact absurd ⟨same.1,same.2.1⟩ here
      · rw [ih0 left,Option.some_or]
      · have missing : owner bits cidr child0 = none := by
          rw [Option.eq_none_iff_forall_ne_some]
          intro p found
          have bit0 := (underHas valid0 side0 (ownerHas found)).2.2
          exact absurd (bit0.symm.trans (underHas valid1 side1 right).2.2) (by decide)
        rw [missing,Option.none_or,ih1 right]

theorem underTrans {peer : Option P} {own above : Addr size} {length up : Nat} {side bit : Bool}
    {child0 child1 child : Trie size P} (outer : Under above up side (node peer own length child0 child1))
    (inner : Under own length bit child) : Under above up side child := by
  cases child with
  | nil => trivial
  | node =>
    obtain ⟨longer,agree,first⟩ := outer
    obtain ⟨deeper,same,_⟩ := inner
    exact ⟨by omega,agree.trans (same.mono (by omega)),by rw [← same up longer,first]⟩

theorem coversIff {peer : Option P} {own : Addr size} {length : Nat} {child0 child1 : Trie size P}
    (short : length ≤ size.width) : covers ip cidr (node peer own length child0 child1) = true ↔
      length ≤ cidr ∧ Agree length own ip := by
  rw [← commonBitsIff short]
  simp [covers]

theorem placementExact (ip : Addr size) (short : cidr ≤ size.width) (valid : Valid t) (parent : Trie size P) :
    (∃ peer child0 child1, nodePlacement ip cidr parent t =
        some (node peer (keepFirst cidr ip) cidr child0 child1,true) ∧ Has (keepFirst cidr ip) cidr peer t) ∨
      ((∃ last, nodePlacement ip cidr parent t = some (last,false)) ∧
        ∀ owner, ¬ Has (keepFirst cidr ip) cidr owner t) := by
  have first : Agree cidr (keepFirst cidr ip) ip := keepFirstAgree short
  induction valid generalizing parent with
  | nil => exact .inr ⟨⟨parent,rfl⟩,fun _ has => has⟩
  | @node peer own length child0 child1 narrow masked branching side0 side1 valid0 valid1 ih0 ih1 =>
    have validHere : Valid (node peer own length child0 child1) :=
      .node narrow masked branching side0 side1 valid0 valid1
    rw [nodePlacement]
    by_cases reached : covers ip cidr (node peer own length child0 child1) = true
    · obtain ⟨le,agree⟩ := (coversIff narrow).mp reached
      rw [if_pos reached]
      by_cases same : length = cidr
      · subst same
        have key : own = keepFirst length ip := by rw [← masked,(keepFirstUnique short).mpr agree]
        rw [if_pos rfl,key]
        exact .inl ⟨peer,child0,child1,rfl,.inl ⟨rfl,rfl,rfl⟩⟩
      · have longer : length < cidr := by omega
        have here : ∀ owner, ¬ (own = keepFirst cidr ip ∧ length = cidr ∧ peer = owner) :=
          fun _ given => same given.2.1
        rw [if_neg same,chooseBit ip (by omega)]
        cases goes : ip.getMsbD length with
        | false =>
          have apart : ∀ owner, ¬ Has (keepFirst cidr ip) cidr owner child1 := by
            intro owner has
            have bit := (underHas valid1 side1 has).2.2
            rw [first length longer,goes] at bit
            exact absurd bit (by decide)
          rcases ih0 (node peer own length child0 child1) with ⟨owner,l,r,run,has⟩ | ⟨run,missing⟩
          · exact .inl ⟨owner,l,r,run,.inr (.inl has)⟩
          · refine .inr ⟨run,fun owner has => ?_⟩
            rcases has with self | left | right
            · exact here owner self
            · exact missing owner left
            · exact apart owner right
        | true =>
          have apart : ∀ owner, ¬ Has (keepFirst cidr ip) cidr owner child0 := by
            intro owner has
            have bit := (underHas valid0 side0 has).2.2
            rw [first length longer,goes] at bit
            exact absurd bit (by decide)
          rcases ih1 (node peer own length child0 child1) with ⟨owner,l,r,run,has⟩ | ⟨run,missing⟩
          · exact .inl ⟨owner,l,r,run,.inr (.inr has)⟩
          · refine .inr ⟨run,fun owner has => ?_⟩
            rcases has with self | left | right
            · exact here owner self
            · exact apart owner left
            · exact missing owner right
    · rw [if_neg reached]
      refine .inr ⟨⟨parent,rfl⟩,fun owner has => reached ((coversIff narrow).mpr ?_)⟩
      obtain ⟨le,agree⟩ := hasRoot validHere has
      exact ⟨le,agree.trans (first.mono le)⟩

/- The owner of the longest prefix of the trie that the address has. -/
def Longest (ip : Addr size) (peer : P) (t : Trie size P) : Prop :=
  ∃ bits cidr, Has bits cidr (some peer) t ∧ Agree cidr bits ip ∧
    ∀ other length q, Has other length (some q) t → Agree length other ip → length ≤ cidr

def Unmatched (ip : Addr size) (t : Trie size P) : Prop :=
  ∀ bits cidr q, Has bits cidr (some q) t → ¬ Agree cidr bits ip

theorem unmatchedOutside {bit side : Bool} {own : Addr size} {length : Nat} (valid : Valid t)
    (under : Under own length side t) (goes : ip.getMsbD length = bit) (other : side ≠ bit) : Unmatched ip t := by
  intro bits cidr q has agree
  obtain ⟨longer,_,first⟩ := underHas valid under has
  exact other (by rw [← first,agree length longer,goes])

theorem unmatchedBottom {side : Bool} {own : Addr size} {length : Nat} (valid : Valid t)
    (under : Under own length side t) (whole : size.width ≤ length) : Unmatched ip t := by
  intro bits cidr q has
  have longer := (underHas valid under has).1
  have bound := (hasShort valid has).1
  omega

/- One step of the search: what the child on the address's side gives decides. -/
theorem descend {found : Option P} {peer : Option P} {own : Addr size} {length : Nat} {bit : Bool}
    {child0 child1 : Trie size P} {res : Option P} (valid0 : Valid child0) (valid1 : Valid child1)
    (side0 : Under own length false child0) (side1 : Under own length true child1) (agree : Agree length own ip)
    (goes : ip.getMsbD length = bit)
    (below : (∃ q, res = some q ∧ Longest ip q (if bit then child1 else child0)) ∨
      (res = peer.or found ∧ Unmatched ip (if bit then child1 else child0))) :
    (∃ q, res = some q ∧ Longest ip q (node peer own length child0 child1)) ∨
      (res = found ∧ Unmatched ip (node peer own length child0 child1)) := by
  have split : ∀ bits cidr q, Has bits cidr (some q) (node peer own length child0 child1) → Agree cidr bits ip →
      (cidr = length ∧ peer = some q) ∨ Has bits cidr (some q) (if bit then child1 else child0) := by
    intro bits cidr q has same
    rcases has with here | left | right
    · exact .inl ⟨here.2.1.symm,here.2.2⟩
    · cases bit with
      | false => exact .inr left
      | true => exact absurd same (unmatchedOutside valid0 side0 goes (by decide) bits cidr q left)
    · cases bit with
      | false => exact absurd same (unmatchedOutside valid1 side1 goes (by decide) bits cidr q right)
      | true => exact .inr right
  have inside : ∀ bits cidr q, Has bits cidr (some q) (if bit then child1 else child0) →
      Has bits cidr (some q) (node peer own length child0 child1) ∧ length < cidr := by
    intro bits cidr q has
    cases bit with
    | false => exact ⟨.inr (.inl has),(underHas valid0 side0 has).1⟩
    | true => exact ⟨.inr (.inr has),(underHas valid1 side1 has).1⟩
  rcases below with ⟨q,result,bits,cidr,has,same,longest⟩ | ⟨result,unmatched⟩
  · obtain ⟨hasAll,longer⟩ := inside bits cidr q has
    refine .inl ⟨q,result,bits,cidr,hasAll,same,fun other len p hasOther sameOther => ?_⟩
    rcases split other len p hasOther sameOther with here | deeper
    · omega
    · exact longest other len p deeper sameOther
  · cases peer with
    | none =>
      refine .inr ⟨result,fun bits cidr q has same => ?_⟩
      rcases split bits cidr q has same with here | deeper
      · exact absurd here.2 (by simp)
      · exact unmatched bits cidr q deeper same
    | some p =>
      refine .inl ⟨p,result,own,length,.inl ⟨rfl,rfl,rfl⟩,agree,fun other len q hasOther sameOther => ?_⟩
      rcases split other len q hasOther sameOther with here | deeper
      · omega
      · exact absurd sameOther (unmatched other len q deeper)

theorem lookupLongest (ip : Addr size) (valid : Valid t) (found : Option P) : ∃ res, lookup ip found t = some res ∧
    ((∃ q, res = some q ∧ Longest ip q t) ∨ (res = found ∧ Unmatched ip t)) := by
  induction valid generalizing found with
  | nil => exact ⟨found,rfl,.inr ⟨rfl,fun _ _ _ has => has.elim⟩⟩
  | @node peer own length child0 child1 short masked branching side0 side1 valid0 valid1 ih0 ih1 =>
    rw [lookup]
    by_cases agree : Agree length own ip
    · rw [if_pos ((commonBitsIff short).mpr agree)]
      dsimp only
      by_cases whole : bitAtByte length = size.bytes
      · -- all the bits are used up, so there is nothing below
        rw [if_pos whole]
        have width := widthBytes size
        unfold bitAtByte at whole
        refine ⟨peer.or found,rfl,descend valid0 valid1 side0 side1 agree rfl (.inr ⟨rfl,?_⟩)⟩
        cases ip.getMsbD length with
        | false => exact unmatchedBottom valid0 side0 (by omega)
        | true => exact unmatchedBottom valid1 side1 (by omega)
      · rw [if_neg whole]
        have below : length < size.width := by
          have width := widthBytes size
          unfold bitAtByte at whole
          omega
        rw [chooseBit ip below]
        cases goes : ip.getMsbD length with
        | false =>
          obtain ⟨res,run,result⟩ := ih0 (peer.or found)
          exact ⟨res,run,descend valid0 valid1 side0 side1 agree goes result⟩
        | true =>
          obtain ⟨res,run,result⟩ := ih1 (peer.or found)
          exact ⟨res,run,descend valid0 valid1 side0 side1 agree goes result⟩
    · rw [if_neg (fun long => agree ((commonBitsIff short).mp long))]
      refine ⟨found,rfl,.inr ⟨rfl,fun bits cidr q has same => ?_⟩⟩
      rcases has with here | left | right
      · obtain ⟨rfl,rfl,_⟩ := here
        exact agree same
      · obtain ⟨longer,extended,_⟩ := underHas valid0 side0 left
        exact agree (extended.trans (same.mono (by omega)))
      · obtain ⟨longer,extended,_⟩ := underHas valid1 side1 right
        exact agree (extended.trans (same.mono (by omega)))

end WebosWireguard.TrieInvariant
