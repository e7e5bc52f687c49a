import WebosWireguard.TransitionRun
import WebosWireguard.WgReader

/-! The texts wg's reader accepts, as a grammar: sections of settings, each setting in a
section that admits it, every peer with a public key. Which values are valid stays with
the value parsers; a text is only compared with the grammar once its values pass. -/
namespace WebosWireguard.ReaderGrammar
open TransitionRun TextLines WgReader

inductive Entry where
  | listenPort | fwMark | privateKey
  | endpoint | publicKey | allowedIPs | persistentKeepalive | presharedKey
  deriving DecidableEq, Repr

namespace Entry

def name : Entry → Text
  | listenPort => "ListenPort".toList
  | fwMark => "FwMark".toList
  | privateKey => "PrivateKey".toList
  | endpoint => "Endpoint".toList
  | publicKey => "PublicKey".toList
  | allowedIPs => "AllowedIPs".toList
  | persistentKeepalive => "PersistentKeepalive".toList
  | presharedKey => "PresharedKey".toList

def peer : Entry → Bool
  | listenPort | fwMark | privateKey => false
  | endpoint | publicKey | allowedIPs | persistentKeepalive | presharedKey => true

def all : List Entry :=
  [listenPort,fwMark,privateKey,endpoint,publicKey,allowedIPs,persistentKeepalive,presharedKey]

theorem memAll (e : Entry) : e ∈ all := by cases e <;> decide

theorem namesDiffer : ∀ e ∈ all, ∀ f ∈ all, lower e.name = lower f.name → e = f := by decide +kernel

theorem namesPlain : ∀ e ∈ all, '=' ∉ lower e.name := by decide +kernel

def passes {V : Values} (vp : Parsers V) (v : Text) : Entry → Bool
  | listenPort => (vp.port v).isSome
  | fwMark => (vp.fwmark v).isSome
  | privateKey | publicKey | presharedKey => (vp.key v).isSome
  | endpoint => (vp.endpoint v).isSome
  | allowedIPs => (vp.allowedips v).isSome
  | persistentKeepalive => (vp.keepalive v).isSome

end Entry

inductive Item where
  | header (peer : Bool)
  | entry (e : Entry) (v : Text)
  | unknown
  deriving DecidableEq, Repr

def entryOf (line : Text) : Option (Entry × Text) :=
  if '=' ∈ line ∧ after '=' line ≠ [] then
    (Entry.all.find? (fun e => lower e.name = lower (before '=' line))).map (fun e => (e,after '=' line))
  else none

def item (line : Text) : Item :=
  if lower line = lower "[Interface]".toList then .header false
  else if lower line = lower "[Peer]".toList then .header true
  else match entryOf line with
    | some found => .entry found.1 found.2
    | none => .unknown

def Item.Passes {V : Values} (vp : Parsers V) : Item → Prop
  | .entry e v => e.passes vp v = true
  | _ => True

/-! One line of the reader against one item. -/

theorem entryOfSome {line v : Text} {e : Entry} :
    entryOf line = some (e,v) ↔ ∃ k, line = k ++ '='::v ∧ lower k = lower e.name ∧ v ≠ [] := by
  have absent : ∀ {k : Text}, lower k = lower e.name → '=' ∉ k :=
    fun same => lowerNotMem same (by decide) (Entry.namesPlain e e.memAll)
  unfold entryOf
  constructor
  · intro found
    split at found
    · rename_i filled
      obtain ⟨f,first,same⟩ := Option.map_eq_some_iff.mp found
      cases same
      have key := List.find?_some first
      refine ⟨before '=' line,cutAt filled.1,?_,filled.2⟩
      exact (by simpa using key : lower e.name = lower (before '=' line)).symm
    · contradiction
  · intro given
    obtain ⟨k,rfl,same,filled⟩ := given
    obtain ⟨own,value⟩ := cutFirst (absent same) v
    rw [own,value,if_pos ⟨by simp,filled⟩,same]
    cases found : Entry.all.find? (fun f => decide (lower f.name = lower e.name)) with
    | none =>
      have missing := List.find?_eq_none.mp found e e.memAll
      simp at missing
    | some f =>
      have key : lower f.name = lower e.name := by simpa using List.find?_some found
      rw [Entry.namesDiffer f f.memAll e e.memAll key]
      rfl

theorem valueOf (e : Entry) (line : Text) :
    getValue line (e.name ++ ['=']) =
      (entryOf line).bind (fun found => if found.1 = e then some found.2 else none) := by
  cases taken : getValue line (e.name ++ ['=']) with
  | some v =>
    have found : entryOf line = some (e,v) := entryOfSome.mpr (getValueShape taken)
    simp [found]
  | none =>
    cases found : entryOf line with
    | none => rfl
    | some pair =>
      obtain ⟨f,v⟩ := pair
      by_cases same : f = e
      · subst same
        obtain ⟨k,rfl,key,filled⟩ := entryOfSome.mp found
        rw [getValueKeyed key,if_neg filled] at taken
        contradiction
      · simp [same]

/- The reader's state as far as the grammar sees it: the section, and for each peer whether
it has its public key. -/
def summary {V : Values} (ctx : Ctx V) : Section × List Bool :=
  (ctx.current,ctx.device.peers.map (fun p => p.publicKey.isSome))

def advance : Section × List Bool → Item → Option (Section × List Bool)
  | (_,keyed),.header false => some (.device,keyed)
  | (_,keyed),.header true => some (.peer,false::keyed)
  | (.device,keyed),.entry e _ => if e.peer then none else some (.device,keyed)
  | (.peer,own::others),.entry e _ =>
    if e.peer then some (.peer,(own || e == .publicKey)::others) else none
  | _,_ => none

section Reader
variable {V : Values} {vp : Parsers V}

theorem deviceLineAdvance {ctx : Ctx V} {line : Text} (inside : ctx.current = .device) :
    match entryOf line with
    | some (e,v) => e.passes vp v = true →
      (deviceLine vp ctx line).toOption.map summary = advance (summary ctx) (.entry e v)
    | none => (deviceLine vp ctx line).toOption = none := by
  have port : getValue line "ListenPort=".toList = _ := valueOf .listenPort line
  have mark : getValue line "FwMark=".toList = _ := valueOf .fwMark line
  have key : getValue line "PrivateKey=".toList = _ := valueOf .privateKey line
  unfold deviceLine
  rw [port,mark,key]
  cases found : entryOf line with
  | none => rfl
  | some pair =>
    obtain ⟨e,v⟩ := pair
    intro passed
    cases e <;> simp only [Entry.passes,Option.isSome_iff_exists] at passed <;>
      obtain ⟨a,value⟩ := passed <;>
      simp [parsed,value,advance,summary,inside,Entry.peer,Except.toOption]

theorem peerLineAdvance {ctx : Ctx V} {peer : Peer V} {others line} (inside : ctx.current = .peer)
    (known : ctx.device.peers = peer::others) :
    match entryOf line with
    | some (e,v) => e.passes vp v = true →
      (peerLine vp ctx peer others line).toOption.map summary = advance (summary ctx) (.entry e v)
    | none => (peerLine vp ctx peer others line).toOption = none := by
  have endpoint : getValue line "Endpoint=".toList = _ := valueOf .endpoint line
  have key : getValue line "PublicKey=".toList = _ := valueOf .publicKey line
  have ips : getValue line "AllowedIPs=".toList = _ := valueOf .allowedIPs line
  have keepalive : getValue line "PersistentKeepalive=".toList = _ := valueOf .persistentKeepalive line
  have preshared : getValue line "PresharedKey=".toList = _ := valueOf .presharedKey line
  unfold peerLine
  rw [endpoint,key,ips,keepalive,preshared]
  cases found : entryOf line with
  | none => rfl
  | some pair =>
    obtain ⟨e,v⟩ := pair
    intro passed
    cases e <;> simp only [Entry.passes,Option.isSome_iff_exists] at passed <;>
      obtain ⟨a,value⟩ := passed <;>
      simp [parsed,value,advance,summary,inside,known,Entry.peer,Except.toOption]

theorem processLineAdvance {ctx : Ctx V} {line : Text} (passed : (item line).Passes vp) :
    (processLine vp ctx line).toOption.map summary = advance (summary ctx) (item line) := by
  unfold processLine
  unfold item at passed ⊢
  split
  · rfl
  split
  · rfl
  rename_i plain other
  rw [if_neg plain,if_neg other] at passed
  obtain ⟨device,current⟩ := ctx
  cases current with
  | none => cases found : entryOf line <;> rfl
  | device =>
    have step := @deviceLineAdvance V vp ⟨device,.device⟩ line rfl
    cases found : entryOf line with
    | none =>
      rw [found] at step
      simp only [step]
      rfl
    | some pair =>
      rw [found] at step passed
      exact step passed
  | peer =>
    cases known : device.peers with
    | nil => cases found : entryOf line <;> simp [summary,advance,known,Except.toOption]
    | cons own others =>
      have step := @peerLineAdvance V vp ⟨device,.peer⟩ own others line rfl known
      cases found : entryOf line with
      | none =>
        rw [found] at step
        simp only [step,summary,known]
        rfl
      | some pair =>
        rw [found] at step passed
        exact step passed

theorem unknownRefused {ctx next : Ctx V} {line : Text} (ok : processLine vp ctx line = .ok next) :
    item line ≠ .unknown := by
  intro unknown
  have step := @processLineAdvance V vp ctx line (by rw [unknown]; trivial)
  rw [ok,unknown] at step
  have refused : advance (summary ctx) .unknown = none := by
    unfold advance
    split <;> trivial
  rw [refused] at step
  contradiction

theorem processLinesAdvance {ls : List Text} {ctx : Ctx V} (passed : ∀ l ∈ ls, (item l).Passes vp) :
    (processLines vp ctx ls).toOption.map summary = run advance (summary ctx) (ls.map item) := by
  induction ls generalizing ctx with
  | nil => rfl
  | cons l rest ih =>
    have step := @processLineAdvance V vp ctx l (passed l (by simp))
    simp only [processLines,List.map_cons,run,bind,Except.bind]
    rw [← step]
    cases processLine vp ctx l with
    | error e => rfl
    | ok next => exact ih (fun m mem => passed m (List.mem_cons_of_mem l mem))

theorem processLinesKnown {ls : List Text} {ctx last : Ctx V} (ok : processLines vp ctx ls = .ok last) :
    ∀ l ∈ ls, item l ≠ .unknown := by
  induction ls generalizing ctx with
  | nil => simp
  | cons l rest ih =>
    simp only [processLines,bind,Except.bind] at ok
    cases here : processLine vp ctx l with
    | error e => simp [here] at ok
    | ok next =>
      rw [here] at ok
      exact List.forall_mem_cons.mpr ⟨unknownRefused here,ih ok⟩

theorem readConfigKnown {text : Text} {device : Device V} (ok : readConfig vp text = .ok device) :
    ∀ l ∈ cleanedLines text, item l ≠ .unknown := by
  unfold readConfig at ok
  rw [readLinesCleaned] at ok
  cases read : processLines vp configReadInit (significant (lines text)) with
  | error e => simp [read,bind,Except.bind] at ok
  | ok last => exact processLinesKnown read

theorem readConfigRun {text : Text} (passed : ∀ l ∈ cleanedLines text, (item l).Passes vp) :
    (∃ device, readConfig vp text = .ok device) ↔
      ∃ s, run advance (.none,[]) ((cleanedLines text).map item) = some s ∧ ∀ k ∈ s.2, k = true := by
  have ran := @processLinesAdvance V vp _ configReadInit passed
  unfold readConfig
  rw [readLinesCleaned]
  rw [show summary (configReadInit : Ctx V) = (.none,[]) from rfl] at ran
  rw [← ran]
  unfold cleanedLines
  cases processLines vp configReadInit (significant (lines text)) with
  | error e => simp [bind,Except.bind,Except.toOption]
  | ok last =>
    simp only [bind,Except.bind,Except.toOption,Option.map_some,Option.some.injEq,
      exists_eq_left',configReadFinish,summary]
    split
    · rename_i keyed
      simpa using keyed
    · rename_i keyed
      simpa using keyed

end Reader

/-! The runs of advance are the sequences of sections. -/

structure Block where
  peer : Bool
  settings : List (Entry × Text)
  deriving DecidableEq, Repr

def settingItems (settings : List (Entry × Text)) : List Item := settings.map (fun s => .entry s.1 s.2)

namespace Block

def items (b : Block) : List Item := .header b.peer::settingItems b.settings
def Admits (b : Block) : Prop := ∀ s ∈ b.settings, s.1.peer = b.peer
def keyed (b : Block) : Bool := b.settings.any (fun s => s.1 == .publicKey)
def place (b : Block) : Section := if b.peer then .peer else .device

structure WellFormed (b : Block) : Prop where
  admitted : b.Admits
  keyed : b.peer = true → b.keyed = true

end Block

theorem deviceSettings {settings : List (Entry × Text)} {keyed}
    (own : ∀ s ∈ settings, s.1.peer = false) :
    run advance (.device,keyed) (settingItems settings) = some (.device,keyed) := by
  induction settings with
  | nil => rfl
  | cons s rest ih =>
    have first := own s (by simp)
    simp only [settingItems,List.map_cons,run,advance,first,Bool.false_eq_true,if_false,Option.bind_some]
    exact ih (fun x mem => own x (List.mem_cons_of_mem s mem))

theorem peerSettings {settings : List (Entry × Text)} {own others}
    (admitted : ∀ s ∈ settings, s.1.peer = true) :
    run advance (.peer,own::others) (settingItems settings) =
      some (.peer,(own || settings.any (fun s => s.1 == .publicKey))::others) := by
  induction settings generalizing own with
  | nil => simp [settingItems,run]
  | cons s rest ih =>
    have first := admitted s (by simp)
    simp only [settingItems,List.map_cons,run,advance,first,if_true,Option.bind_some,List.any_cons]
    rw [← Bool.or_assoc]
    exact ih (fun x mem => admitted x (List.mem_cons_of_mem s mem))

theorem advanceBlock {b : Block} (admitted : b.Admits) (s : Section × List Bool) :
    run advance s b.items = some (b.place,if b.peer then b.keyed::s.2 else s.2) := by
  obtain ⟨peer,settings⟩ := b
  cases peer with
  | false => exact deviceSettings admitted
  | true =>
    have ran := @peerSettings settings false s.2 admitted
    rw [Bool.false_or] at ran
    exact ran

theorem advanceBlocks {blocks : List Block} (admitted : ∀ b ∈ blocks, b.Admits) (s : Section × List Bool) :
    ∃ place, run advance s (blocks.flatMap Block.items) =
      some (place,((blocks.filter Block.peer).map Block.keyed).reverse ++ s.2) := by
  induction blocks generalizing s with
  | nil => exact ⟨s.1,rfl⟩
  | cons b rest ih =>
    rw [List.flatMap_cons,runAppend,advanceBlock (admitted b (by simp)),Option.bind_some]
    obtain ⟨place,ran⟩ := ih (fun x mem => admitted x (List.mem_cons_of_mem b mem)) (b.place,_)
    refine ⟨place,ran.trans ?_⟩
    cases own : b.peer <;> simp [own]

/- What is left to read belongs to the open section up to the next header. -/
theorem advanceSplit {items : List Item} {s last : Section × List Bool} (ran : run advance s items = some last) :
    ∃ settings, ∃ blocks : List Block, items = settingItems settings ++ blocks.flatMap Block.items ∧
      (∀ b ∈ blocks, b.Admits) ∧ (s.1 = .none → settings = []) ∧
      (s.1 = .device → ∀ x ∈ settings, x.1.peer = false) ∧
      (s.1 = .peer → ∀ x ∈ settings, x.1.peer = true) := by
  induction items generalizing s with
  | nil => exact ⟨[],[],by simp [settingItems]⟩
  | cons first rest ih =>
    obtain ⟨next,step,later⟩ := runCons ran
    obtain ⟨settings,blocks,split,admitted,outside,device,peer⟩ := ih later
    obtain ⟨place,keyed⟩ := s
    cases first with
    | unknown => cases place <;> simp [advance] at step
    | header own =>
      refine ⟨[],⟨own,settings⟩::blocks,?_,List.forall_mem_cons.mpr ⟨?_,admitted⟩,by simp⟩
      · simp [split,Block.items,settingItems]
      · cases own with
        | false => exact device (by cases Option.some.inj step; rfl)
        | true => exact peer (by cases Option.some.inj step; rfl)
    | entry e v =>
      refine ⟨(e,v)::settings,blocks,by simp [split,settingItems],admitted,?_⟩
      cases place with
      | none => simp [advance] at step
      | device =>
        cases own : e.peer with
        | true => simp [advance,own] at step
        | false =>
          have same : (Section.device,keyed) = next := by simpa [advance,own] using step
          simpa [own] using device (by rw [← same])
      | peer =>
        cases keyed with
        | nil => simp [advance] at step
        | cons k others =>
          cases own : e.peer with
          | false => simp [advance,own] at step
          | true =>
            have same : (Section.peer,(k || e == .publicKey)::others) = next := by
              simpa [advance,own] using step
            simpa [own] using peer (by rw [← same])

theorem acceptedBlocks {items : List Item} :
    (∃ s, run advance (.none,[]) items = some s ∧ ∀ k ∈ s.2, k = true) ↔
      ∃ blocks : List Block, items = blocks.flatMap Block.items ∧ ∀ b ∈ blocks, b.WellFormed := by
  have flags : ∀ {blocks : List Block} {s : Section × List Bool} {place},
      run advance (.none,[]) (blocks.flatMap Block.items) =
        some (place,((blocks.filter Block.peer).map Block.keyed).reverse ++ []) →
      run advance (.none,[]) (blocks.flatMap Block.items) = some s →
      ((∀ k ∈ s.2, k = true) ↔ ∀ b ∈ blocks, b.peer = true → b.keyed = true) := by
    intro blocks s place ran taken
    cases Option.some.inj (ran.symm.trans taken)
    simp
  constructor
  · intro given
    obtain ⟨s,ran,keyed⟩ := given
    obtain ⟨settings,blocks,split,admitted,outside,_⟩ := advanceSplit ran
    rw [outside rfl] at split
    have whole : items = blocks.flatMap Block.items := split
    obtain ⟨place,through⟩ := advanceBlocks admitted (.none,[])
    rw [whole] at ran
    have each := (flags through ran).mp keyed
    exact ⟨blocks,whole,fun b mem => ⟨admitted b mem,each b mem⟩⟩
  · intro given
    obtain ⟨blocks,rfl,formed⟩ := given
    obtain ⟨place,through⟩ := advanceBlocks (fun b mem => (formed b mem).admitted) (.none,[])
    exact ⟨_,through,(flags through through).mpr (fun b mem => (formed b mem).keyed)⟩

theorem readConfigBlocks {V : Values} {vp : Parsers V} {text : Text}
    (passed : ∀ l ∈ cleanedLines text, (item l).Passes vp) :
    (∃ device, readConfig vp text = .ok device) ↔
      ∃ blocks : List Block, (cleanedLines text).map item = blocks.flatMap Block.items ∧
        ∀ b ∈ blocks, b.WellFormed :=
  (readConfigRun passed).trans acceptedBlocks

end WebosWireguard.ReaderGrammar
