import WebosWireguard.TrieInvariant

/-! Insertion and removal keep the invariant of the tries and change what they hold as
said, without ever reading past the end of an address. -/
namespace WebosWireguard.TrieUpdate
open AddressBits PeerTrie PeerTrie.Trie TrieInvariant

variable {size : Size} {P : Type} {t : Trie size P} {bits ip : Addr size} {cidr : Nat}

section Sides
variable {peer owner : Option P} {own : Addr size} {length : Nat} {child0 child1 child : Trie size P}

theorem hasSides (bit : Bool) : Has bits cidr owner (node peer own length child0 child1) ↔
    (own = bits ∧ length = cidr ∧ peer = owner) ∨ Has bits cidr owner (if bit then child1 else child0) ∨
      Has bits cidr owner (if bit then child0 else child1) := by
  cases bit with
  | false => rfl
  | true => exact or_congr_right or_comm

theorem hasSetChild (bit : Bool) : Has bits cidr owner (setChild bit child (node peer own length child0 child1)) ↔
    (own = bits ∧ length = cidr ∧ peer = owner) ∨ Has bits cidr owner child ∨
      Has bits cidr owner (if bit then child0 else child1) := by
  cases bit with
  | false => rfl
  | true => exact or_congr_right or_comm

theorem validSide (bit : Bool) (valid : Valid (node peer own length child0 child1)) :
    Valid (if bit then child1 else child0) ∧ Under own length bit (if bit then child1 else child0) := by
  cases valid with
  | node narrow masked branching side0 side1 valid0 valid1 =>
    cases bit with
    | false => exact ⟨valid0,side0⟩
    | true => exact ⟨valid1,side1⟩

theorem validSetChild {bit : Bool} (valid : Valid (node peer own length child0 child1)) (inside : Valid child)
    (under : Under own length bit child) (full : peer = none → child.isNil = false) :
    Valid (setChild bit child (node peer own length child0 child1)) := by
  cases valid with
  | node narrow masked branching side0 side1 valid0 valid1 =>
    cases bit with
    | false =>
      exact .node narrow masked (fun free => ⟨full free,(branching free).2⟩) under side1 inside valid1
    | true =>
      exact .node narrow masked (fun free => ⟨(branching free).1,full free⟩) side0 under valid0 inside

/- A prefix on one side of a node is neither at the node nor on the other side. -/
theorem sideApart (owner : Option P) {bit : Bool} (valid : Valid (node peer own length child0 child1)) (longer : length < cidr)
    (goes : bits.getMsbD length = bit) : ¬ (own = bits ∧ length = cidr ∧ peer = owner) ∧
      ¬ Has bits cidr owner (if bit then child0 else child1) := by
  refine ⟨fun same => absurd same.2.1 (by omega),fun has => ?_⟩
  cases bit with
  | false =>
    obtain ⟨inside,under⟩ := validSide true valid
    exact absurd ((underHas inside under has).2.2.symm.trans goes) (by decide)
  | true =>
    obtain ⟨inside,under⟩ := validSide false valid
    exact absurd ((underHas inside under has).2.2.symm.trans goes) (by decide)

theorem underSetChild {bit side : Bool} {above : Addr size} {up : Nat}
    (under : Under above up side (node peer own length child0 child1)) :
    Under above up side (setChild bit child (node peer own length child0 child1)) := by
  cases bit <;> exact under

end Sides

/- What an insertion does to a trie, and the peer it takes the prefix from. -/
structure Inserted (ip : Addr size) (cidr : Nat) (peer : P) (t after : Trie size P) (old : Option P) : Prop where
  valid : Valid after
  full : after.isNil = false
  owner : ∀ q, old = some q ↔ Has (keepFirst cidr ip) cidr (some q) t
  entries : ∀ bits length q, Has bits length (some q) after ↔
    ((bits = keepFirst cidr ip ∧ length = cidr) ∧ q = peer) ∨
      (¬ (bits = keepFirst cidr ip ∧ length = cidr) ∧ Has bits length (some q) t)
  under : ∀ above length side, Under above length side t → length < cidr → Agree length above ip →
    ip.getMsbD length = side → Under above length side after

section Insert
variable (ip) (peer : P) (short : cidr ≤ size.width)
include short

theorem newNodeInserted : Inserted ip cidr peer nil (newNode ip cidr peer) none := by
  refine ⟨.node short (keepFirstAgain short (le_refl cidr)) (by simp) trivial trivial .nil .nil,rfl,?_,?_,?_⟩
  · intro q
    simp [Has]
  · intro bits length q
    simp only [newNode,Has,Option.some.injEq,or_false,and_false]
    constructor
    · intro given
      exact ⟨⟨given.1.symm,given.2.1.symm⟩,given.2.2.symm⟩
    · intro given
      exact ⟨given.1.1.symm,given.1.2.symm,given.2.symm⟩
  · intro above length side _ longer agree bit
    have same : Agree cidr (keepFirst cidr ip) ip := keepFirstAgree short
    exact ⟨longer,agree.trans (same.mono (by omega)).symm,by rw [same length longer,bit]⟩

omit short in
/- The entries of a trie made of `down` and the new node, which are apart. -/
theorem joinEntries {after down : Trie size P} (apart : ∀ q, ¬ Has (keepFirst cidr ip) cidr (some q) down)
    (both : ∀ bits length q, Has bits length (some q) after ↔
      ((bits = keepFirst cidr ip ∧ length = cidr) ∧ q = peer) ∨ Has bits length (some q) down)
    (bits : Addr size) (length : Nat) (q : P) : Has bits length (some q) after ↔
      ((bits = keepFirst cidr ip ∧ length = cidr) ∧ q = peer) ∨
        (¬ (bits = keepFirst cidr ip ∧ length = cidr) ∧ Has bits length (some q) down) := by
  rw [both]
  by_cases here : bits = keepFirst cidr ip ∧ length = cidr
  · obtain ⟨rfl,rfl⟩ := here
    simp [apart q]
  · simp [here]

section Join
variable {owner : Option P} {own : Addr size} {length : Nat} {child0 child1 : Trie size P}
  (validDown : Valid (node owner own length child0 child1))
include validDown

/- The new prefix is above `down`. -/
theorem joinAbove (longer : cidr < length) (agree : Agree cidr own ip) : ∃ bit,
    choose cidr own = some bit ∧ Inserted ip cidr peer (node owner own length child0 child1)
      (setChild bit (node owner own length child0 child1) (newNode ip cidr peer)) none := by
  have bound : length ≤ size.width := by cases validDown with | node short => exact short
  have masked : Agree cidr (keepFirst cidr ip) own := (keepFirstAgree short).trans agree.symm
  have apart : ∀ q, ¬ Has (keepFirst cidr ip) cidr (some q) (node owner own length child0 child1) := by
    intro q has
    have deeper := (hasRoot validDown has).1
    omega
  have fresh := newNodeInserted ip peer short
  refine ⟨own.getMsbD cidr,chooseBit own (by omega),?_,?_,?_,?_,?_⟩
  · cases bit : own.getMsbD cidr with
    | false => exact .node short (keepFirstAgain short (le_refl cidr)) (by simp) ⟨longer,masked,bit⟩ trivial validDown .nil
    | true => exact .node short (keepFirstAgain short (le_refl cidr)) (by simp) trivial ⟨longer,masked,bit⟩ .nil validDown
  · cases own.getMsbD cidr <;> rfl
  · intro q
    simp [apart q]
  · refine joinEntries ip peer apart (fun bits len q => ?_)
    have alone := fresh.entries bits len q
    simp only [newNode,Has,or_false,and_false] at alone
    cases own.getMsbD cidr <;> simp only [setChild,newNode,Has,if_true,Bool.false_eq_true,if_false,or_false,
      false_or,alone]
  · intro above len side _ shorter agreeAbove bit
    have under := fresh.under above len side trivial shorter agreeAbove bit
    cases own.getMsbD cidr <;> exact under

/- The new prefix and `down` part at a common node. -/
theorem joinFork {both : Nat} (shorter : both < cidr) (longer : both < length)
    (agree : Agree both own ip) (part : own.getMsbD both ≠ ip.getMsbD both) : ∃ bit side,
    choose both own = some bit ∧ choose both (keepFirst cidr ip) = some side ∧
      Inserted ip cidr peer (node owner own length child0 child1)
        (setChild side (newNode ip cidr peer) (setChild bit (node owner own length child0 child1)
          (node none (keepFirst both ip) both nil nil))) none := by
  have masked : Agree both (keepFirst both ip) ip := keepFirstAgree (by omega)
  have first : Agree cidr (keepFirst cidr ip) ip := keepFirstAgree short
  have apart : ∀ q, ¬ Has (keepFirst cidr ip) cidr (some q) (node owner own length child0 child1) := by
    intro q has
    have same := (hasRoot validDown has).2 both longer
    exact part (same.trans (first both shorter))
  have fresh := newNodeInserted ip peer short
  have here : Under (keepFirst both ip) both (ip.getMsbD both) (newNode ip cidr peer) :=
    fresh.under _ _ _ trivial shorter masked rfl
  have down : Under (keepFirst both ip) both (own.getMsbD both) (node owner own length child0 child1) :=
    ⟨longer,masked.trans agree.symm,rfl⟩
  refine ⟨own.getMsbD both,ip.getMsbD both,chooseBit own (by omega),?_,?_,?_,?_,?_,?_⟩
  · rw [chooseBit _ (by omega),first both shorter]
  · have again : keepFirst both (keepFirst both ip) = keepFirst both ip := keepFirstAgain (by omega) (le_refl both)
    revert here down part
    cases own.getMsbD both <;> cases ip.getMsbD both <;> intro part here down
    · exact absurd rfl part
    · exact .node (by omega) again (by simp [isNil,newNode]) down here validDown fresh.valid
    · exact .node (by omega) again (by simp [isNil,newNode]) here down fresh.valid validDown
    · exact absurd rfl part
  · cases own.getMsbD both <;> cases ip.getMsbD both <;> rfl
  · intro q
    simp [apart q]
  · refine joinEntries ip peer apart (fun bits len q => ?_)
    have alone := fresh.entries bits len q
    simp only [Has,and_false,or_false] at alone
    revert part
    cases own.getMsbD both <;> cases ip.getMsbD both <;> intro part
    · exact absurd rfl part
    · simp only [setChild,Has,if_true,Bool.false_eq_true,if_false,reduceCtorEq,and_false,false_or,alone]
      exact or_comm
    · simp only [setChild,Has,if_true,Bool.false_eq_true,if_false,reduceCtorEq,and_false,false_or,alone]
    · exact absurd rfl part
  · intro above len side under shorterAbove agreeAbove bit
    obtain ⟨_,agreeDown,bitDown⟩ := under
    have deeper : len < both := by
      by_contra late
      rcases Nat.lt_or_eq_of_le (Nat.le_of_not_lt late) with before | same
      · exact part ((agreeDown both before).symm.trans (agreeAbove both before))
      · exact part (by rw [same,bitDown,bit])
    have root : Under above len side (node (none : Option P) (keepFirst both ip) both nil nil) :=
      ⟨deeper,agreeAbove.trans (masked.mono (by omega)).symm,by rw [masked len deeper,bit]⟩
    cases own.getMsbD both <;> cases ip.getMsbD both <;> exact root

theorem joinInserted (outside : ¬ (length ≤ cidr ∧ Agree length own ip)) : ∃ p bits len left right,
    join ip cidr peer (node owner own length child0 child1) own = some (node p bits len left right,bits) ∧
      Inserted ip cidr peer (node owner own length child0 child1) (node p bits len left right) none := by
  have masked : Agree cidr (keepFirst cidr ip) ip := keepFirstAgree short
  have again : newNode (keepFirst cidr ip) cidr peer = newNode ip cidr peer := by
    rw [newNode,newNode,keepFirstAgain short (le_refl cidr)]
  unfold join
  dsimp only
  rw [again]
  by_cases whole : commonBits own (keepFirst cidr ip) < cidr
  · rw [if_pos whole,if_neg (by omega)]
    have agree := (commonBitsIff (a := own) (b := keepFirst cidr ip) (by omega)).mp (le_refl _)
    have next : ¬ Agree (commonBits own (keepFirst cidr ip) + 1) own (keepFirst cidr ip) := by
      rw [← commonBitsIff (by omega)]
      omega
    generalize commonBits own (keepFirst cidr ip) = both at whole agree next
    have part : own.getMsbD both ≠ ip.getMsbD both := by
      intro same
      exact next (agreeSucc.mpr ⟨agree,same.trans (masked both whole).symm⟩)
    have longer : both < length := by
      by_contra late
      exact outside ⟨by omega,(agree.mono (by omega)).trans (masked.mono (by omega))⟩
    obtain ⟨bit,side,first,second,inserted⟩ := joinFork ip peer short validDown whole longer
      (agree.trans (masked.mono (by omega))) part
    rw [first,second,keepFirstAgain short (by omega)]
    cases bit <;> cases side <;> exact ⟨_,_,_,_,_,rfl,inserted⟩
  · rw [if_neg whole,if_pos rfl]
    have agree : Agree cidr own ip := ((commonBitsIff short).mp (by omega)).trans masked
    have longer : cidr < length := by
      by_contra late
      exact outside ⟨by omega,agree.mono (by omega)⟩
    obtain ⟨bit,first,inserted⟩ := joinAbove ip peer short validDown longer agree
    rw [first]
    cases bit <;> exact ⟨_,_,_,_,_,rfl,inserted⟩

end Join

section Below
variable {owner : Option P} {own : Addr size} {length : Nat} {child0 child1 : Trie size P}

/- Inserting into the child on the side of the address is inserting into the node. -/
theorem insertedChild (valid : Valid (node owner own length child0 child1)) (longer : length < cidr)
    (agree : Agree length own ip) {bit : Bool} (goes : ip.getMsbD length = bit) {child : Trie size P}
    {old : Option P} (inserted : Inserted ip cidr peer (if bit then child1 else child0) child old) :
    Inserted ip cidr peer (node owner own length child0 child1)
      (setChild bit child (node owner own length child0 child1)) old := by
  have first : (keepFirst cidr ip).getMsbD length = bit := by rw [keepFirstAgree short length longer,goes]
  obtain ⟨inside,under⟩ := validSide bit valid
  refine ⟨validSetChild valid inserted.valid (inserted.under _ _ _ under longer agree goes)
    (fun _ => inserted.full),by cases bit <;> rfl,fun q => ?_,fun bits len q => ?_,
    fun above len side under _ _ _ => underSetChild under⟩
  · obtain ⟨here,other⟩ := sideApart (some q) valid longer first
    rw [inserted.owner q,hasSides bit]
    simp only [here,other,false_or,or_false]
  · rw [hasSetChild,hasSides bit,inserted.entries]
    by_cases key : bits = keepFirst cidr ip ∧ len = cidr
    · obtain ⟨rfl,rfl⟩ := key
      obtain ⟨here,other⟩ := sideApart (some q) valid longer first
      simp only [here,other,true_and,not_true,false_and,or_false,false_or,and_self]
    · simp only [key,false_and,false_or,not_false_eq_true,true_and]

/- The prefix stands in the trie already: its node changes hands. -/
theorem insertedHere (valid : Valid (node owner own cidr child0 child1)) (agree : Agree cidr own ip) :
    Inserted ip cidr peer (node owner own cidr child0 child1) (node (some peer) own cidr child0 child1) owner := by
  have key : own = keepFirst cidr ip := by
    cases valid with
    | node narrow masked => rw [← masked,(keepFirstUnique short).mpr agree]
  cases valid with
  | node narrow masked branching side0 side1 valid0 valid1 =>
    have below : ∀ q, ¬ (Has own cidr (some q) child0 ∨ Has own cidr (some q) child1) := by
      intro q has
      rcases has with left | right
      · exact notBelow valid0 side0 left
      · exact notBelow valid1 side1 right
    refine ⟨.node narrow masked (by simp) side0 side1 valid0 valid1,rfl,fun q => ?_,fun bits len q => ?_,
      fun above len side under _ _ _ => under⟩
    · rw [← key]
      simp [Has,below q]
    · rw [← key]
      simp only [Has,Option.some.injEq]
      by_cases same : bits = own ∧ len = cidr
      · obtain ⟨rfl,rfl⟩ := same
        simp only [true_and,below q,or_false,not_true,false_and]
        exact eq_comm
      · have other : ¬ (own = bits ∧ cidr = len) := fun given => same ⟨given.1.symm,given.2.symm⟩
        simp only [← and_assoc,other,same,false_and,false_or,not_false_eq_true,true_and]

end Below

theorem insertBelowInserted (valid : Valid t) (reached : covers ip cidr t = true) :
    ∃ after old, insertBelow ip cidr peer t = some (after,old) ∧ Inserted ip cidr peer t after old := by
  induction valid with
  | nil => exact absurd reached (by simp [covers])
  | @node owner own length child0 child1 narrow masked branching side0 side1 valid0 valid1 ih0 ih1 =>
    have validHere : Valid (node owner own length child0 child1) :=
      .node narrow masked branching side0 side1 valid0 valid1
    obtain ⟨le,agree⟩ := (coversIff narrow).mp reached
    unfold insertBelow
    by_cases same : length = cidr
    · subst same
      rw [if_pos rfl]
      exact ⟨_,_,rfl,insertedHere ip peer short validHere agree⟩
    · rw [if_neg same,chooseBit ip (by omega)]
      have longer : length < cidr := by omega
      dsimp only
      generalize goes : ip.getMsbD length = bit
      have below : covers ip cidr (if bit then child1 else child0) = true → ∃ after old,
          (if bit then insertBelow ip cidr peer child1 else insertBelow ip cidr peer child0) = some (after,old) ∧
            Inserted ip cidr peer (if bit then child1 else child0) after old := by
        intro placed
        cases bit with
        | false => exact ih0 placed
        | true => exact ih1 placed
      obtain ⟨validDown,underDown⟩ := validSide bit validHere
      have child : ∀ {after old}, Inserted ip cidr peer (if bit then child1 else child0) after old →
          Inserted ip cidr peer (node owner own length child0 child1)
            (setChild bit after (node owner own length child0 child1)) old :=
        insertedChild ip peer short validHere longer agree goes
      generalize (if bit then child1 else child0) = down at below validDown underDown child
      by_cases further : covers ip cidr down = true
      · obtain ⟨after,old,run,inserted⟩ := below further
        rw [if_pos further,run]
        exact ⟨_,_,rfl,child inserted⟩
      · rw [if_neg further]
        cases down with
        | nil => exact ⟨_,_,rfl,child (newNodeInserted ip peer short)⟩
        | node p downBits downLength left right =>
          have bound : downLength ≤ size.width := by cases validDown with | node small => exact small
          obtain ⟨q,bits,len,l,r,run,inserted⟩ := joinInserted ip peer short validDown
            (fun reach => further ((coversIff bound).mpr reach))
          have slot := (inserted.under own length bit underDown longer agree goes).2.2
          dsimp only
          rw [run]
          simp only [bind,Option.bind,chooseBit bits (show length < size.width by omega),slot]
          exact ⟨_,_,rfl,child inserted⟩

theorem insertInserted (valid : Valid t) :
    ∃ after old, Trie.insert ip cidr peer t = some (after,old) ∧ Inserted ip cidr peer t after old := by
  cases t with
  | nil => exact ⟨_,_,rfl,newNodeInserted ip peer short⟩
  | node owner own length child0 child1 =>
    have narrow : length ≤ size.width := by cases valid with | node small => exact small
    dsimp only [Trie.insert]
    by_cases reached : covers ip cidr (node owner own length child0 child1) = true
    · rw [if_pos reached]
      exact insertBelowInserted ip peer short valid reached
    · rw [if_neg reached]
      obtain ⟨q,bits,len,l,r,run,inserted⟩ := joinInserted ip peer short valid
        (fun reach => reached ((coversIff narrow).mpr reach))
      rw [run]
      exact ⟨_,_,rfl,inserted⟩

end Insert

/- What taking a prefix out does to a trie; the trie is empty if its only node was removed. -/
structure Removed (bits : Addr size) (cidr : Nat) (t after : Trie size P) (bare : Bool) : Prop where
  valid : Valid after
  bare : after.isNil = bare
  entries : ∀ other length q, Has other length (some q) after ↔
    ¬ (other = bits ∧ length = cidr) ∧ Has other length (some q) t
  under : ∀ above length side, Under above length side t → Under above length side after

theorem removeNone (missing : ∀ owner, ¬ Has bits cidr owner t) : remove bits cidr t = none := by
  induction t with
  | nil => rfl
  | node peer own length child0 child1 ih0 ih1 =>
    have here : ¬ (own = bits ∧ length = cidr) := fun same => missing peer (.inl ⟨same.1,same.2,rfl⟩)
    rw [remove,if_neg here,ih0 (fun owner has => missing owner (.inr (.inl has))),
      ih1 (fun owner has => missing owner (.inr (.inr has)))]

section Remove
variable {peer : Option P} {own : Addr size} {length : Nat} {child0 child1 : Trie size P}

theorem nilOfIsNil {t : Trie size P} (empty : t.isNil = true) : t = nil := by
  cases t with
  | nil => rfl
  | node => exact absurd empty (by simp [isNil])

/- The removed node itself. -/
theorem removedHere (valid : Valid (node peer bits cidr child0 child1)) :
    ∃ after bare, remove bits cidr (node peer bits cidr child0 child1) = some (after,bare) ∧
      Removed bits cidr (node peer bits cidr child0 child1) after bare := by
  cases valid with
  | node narrow masked branching side0 side1 valid0 valid1 =>
    have rest : ∀ other len q, (¬ (other = bits ∧ len = cidr) ∧
        Has other len (some q) (node peer bits cidr child0 child1)) ↔
        Has other len (some q) child0 ∨ Has other len (some q) child1 := by
      intro other len q
      by_cases key : other = bits ∧ len = cidr
      · obtain ⟨rfl,rfl⟩ := key
        simp [Has,notBelow valid0 side0,notBelow valid1 side1]
      · have apart : ¬ (bits = other ∧ cidr = len ∧ peer = some q) := fun same => key ⟨same.1.symm,same.2.1.symm⟩
        simp [key,Has,apart]
    rw [remove,if_pos ⟨rfl,rfl⟩]
    cases left : child0.isNil with
    | true =>
      have none0 := nilOfIsNil left
      subst none0
      refine ⟨child1,child1.isNil,by simp,valid1,rfl,fun other len q => ?_,fun above len side under =>
        underTrans under side1⟩
      rw [rest]
      simp [Has]
    | false =>
      cases right : child1.isNil with
      | true =>
        have none1 := nilOfIsNil right
        subst none1
        refine ⟨child0,false,by simp,valid0,left,fun other len q => ?_,fun above len side under =>
          underTrans under side0⟩
        rw [rest]
        simp [Has]
      | false =>
        refine ⟨node none bits cidr child0 child1,false,by simp,
          .node narrow masked (fun _ => ⟨left,right⟩) side0 side1 valid0 valid1,rfl,fun other len q => ?_,
          fun above len side under => under⟩
        rw [rest]
        simp [Has]

/- The removed node is below: its parent goes with it if it is left with one child for nothing. -/
theorem removedChild {owner : Option P} (bit : Bool) {bare : Bool} {child : Trie size P}
    (valid : Valid (node peer own length child0 child1))
    (has : Has bits cidr owner (if bit then child1 else child0))
    (removed : Removed bits cidr (if bit then child1 else child0) child bare) :
    Removed bits cidr (node peer own length child0 child1)
      (if bare && peer.isNone then (if bit then child0 else child1)
        else setChild bit child (node peer own length child0 child1)) false := by
  obtain ⟨inside,under⟩ := validSide bit valid
  obtain ⟨longer,_,goes⟩ := underHas inside under has
  have entries : ∀ other len q, Has other len (some q) (setChild bit child (node peer own length child0 child1)) ↔
      ¬ (other = bits ∧ len = cidr) ∧ Has other len (some q) (node peer own length child0 child1) := by
    intro other len q
    rw [hasSetChild,hasSides bit,removed.entries]
    by_cases key : other = bits ∧ len = cidr
    · obtain ⟨rfl,rfl⟩ := key
      obtain ⟨here,apart⟩ := sideApart (some q) valid longer goes
      simp [here,apart]
    · simp only [key,not_false_eq_true,true_and]
  by_cases collapse : (bare && peer.isNone) = true
  · rw [if_pos collapse]
    obtain ⟨empty,free⟩ := (Bool.and_eq_true_iff).mp collapse
    have gone : child = nil := nilOfIsNil (removed.bare.trans empty)
    have free := Option.isNone_iff_eq_none.mp free
    subst gone free
    have side : (if bit then child0 else child1) = (if !bit then child1 else child0) := by cases bit <;> rfl
    obtain ⟨validOther,underOther⟩ := validSide (!bit) valid
    rw [side]
    refine ⟨validOther,?_,fun other len q => ?_,fun above len first outer => underTrans outer underOther⟩
    · cases valid with
      | node narrow masked branching =>
        cases bit with
        | false => exact (branching rfl).2
        | true => exact (branching rfl).1
    · rw [← entries,hasSetChild,← side]
      simp [Has]
  · rw [if_neg collapse]
    refine ⟨validSetChild valid removed.valid (removed.under _ _ _ under) (fun free => ?_),by cases bit <;> rfl,
      entries,fun above len side outer => underSetChild outer⟩
    rw [removed.bare]
    cases bare with
    | false => rfl
    | true => exact absurd (by simp [free]) collapse

theorem removeRemoved {owner : Option P} (valid : Valid t) (has : Has bits cidr owner t) :
    ∃ after bare, remove bits cidr t = some (after,bare) ∧ Removed bits cidr t after bare := by
  induction valid with
  | nil => exact has.elim
  | @node peer own length child0 child1 narrow masked branching side0 side1 valid0 valid1 ih0 ih1 =>
    have validHere : Valid (node peer own length child0 child1) :=
      .node narrow masked branching side0 side1 valid0 valid1
    by_cases here : own = bits ∧ length = cidr
    · obtain ⟨rfl,rfl⟩ := here
      exact removedHere validHere
    · rw [remove,if_neg here]
      rcases has with same | left | right
      · exact absurd ⟨same.1,same.2.1⟩ here
      · obtain ⟨child,bare,run,removed⟩ := ih0 left
        rw [run]
        have result := removedChild false validHere left removed
        dsimp only
        by_cases collapse : (bare && peer.isNone) = true
        · rw [if_pos collapse] at result ⊢
          exact ⟨_,_,rfl,result⟩
        · rw [if_neg collapse] at result ⊢
          exact ⟨_,_,rfl,result⟩
      · obtain ⟨longer,_,goes⟩ := underHas valid1 side1 right
        have apart : ∀ q, ¬ Has bits cidr q child0 := fun q => (sideApart q validHere longer goes).2
        obtain ⟨child,bare,run,removed⟩ := ih1 right
        rw [removeNone apart,run]
        have result := removedChild true validHere right removed
        dsimp only
        by_cases collapse : (bare && peer.isNone) = true
        · rw [if_pos collapse] at result ⊢
          exact ⟨_,_,rfl,result⟩
        · rw [if_neg collapse] at result ⊢
          exact ⟨_,_,rfl,result⟩

end Remove

end WebosWireguard.TrieUpdate

