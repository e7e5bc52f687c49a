import WebosWireguard.UapiDevice

/-! What holds of the device after any set requests, well formed or not: its peers have
distinct keys, none of them its own, and only they are given packets. -/
namespace WebosWireguard.UapiSession
open TextLines UapiText UapiDevice PeerTrie PeerTable SubnetTable OutputRun TransitionRun

def owners (device : Device) : Owners Key := device.allowedips.foldl assign []

def keys (device : Device) : List Key := device.keyMap.map Prod.fst

structure Sound (device : Device) : Prop where
  distinct : (keys device).Nodup
  notOwn : device.publicKey ∉ keys device
  alive : ∀ o ∈ owners device, o.2 ∈ keys device

structure SoundSet (s : Set) : Prop where
  device : Sound s.device
  current : ∀ key created, s.current = .peer key created → key ∈ keys s.device

theorem lookupPeerKeys {device : Device} {key : Key} : (lookupPeer device key).isSome ↔ key ∈ keys device := by
  unfold lookupPeer keys
  induction device.keyMap with
  | nil => simp
  | cons entry rest ih =>
    obtain ⟨own,peer⟩ := entry
    by_cases same : key = own
    · simp [same]
    · have differ : (key == own) = false := by simpa using same
      simp only [List.lookup_cons,differ,List.map_cons,List.mem_cons,same,false_or]
      exact ih

theorem ownersCall {device : Device} {call : Call Key} :
    owners {device with allowedips := device.allowedips ++ [call]} = assign (owners device) call := by
  simp [owners]

section Peers
variable {device : Device} {key : Key}

theorem removedKeys : keys (removePeerLocked device key) = (keys device).filter (· ≠ key) := by
  simp [keys,removePeerLocked,List.filter_map,Function.comp_def]

theorem removedOwners : owners (removePeerLocked device key) = (owners device).filter (fun o => o.2 ≠ key) := by
  simp [owners,removePeerLocked,assign]

theorem removePeerLockedSound (sound : Sound device) (key : Key) : Sound (removePeerLocked device key) := by
  refine ⟨?_,?_,?_⟩
  · rw [removedKeys]
    exact sound.distinct.filter _
  · rw [removedKeys]
    exact fun mem => sound.notOwn (List.mem_of_mem_filter mem)
  · intro o mem
    rw [removedOwners] at mem
    rw [removedKeys]
    obtain ⟨inside,other⟩ := List.mem_filter.mp mem
    exact List.mem_filter.mpr ⟨sound.alive o inside,other⟩

theorem removePeerKeys : keys (removePeer device key) = (keys device).filter (· ≠ key) := by
  unfold removePeer
  by_cases known : (lookupPeer device key).isSome
  · rw [if_pos known,removedKeys]
  · rw [if_neg known]
    refine (List.filter_eq_self.mpr (fun k mem => ?_)).symm
    rw [decide_eq_true_eq]
    intro same
    exact known (lookupPeerKeys.mpr (same ▸ mem))

theorem removePeerSound (sound : Sound device) (key : Key) : Sound (removePeer device key) := by
  unfold removePeer
  split
  · exact removePeerLockedSound sound key
  · exact sound

/- Removing peers one after the other leaves those that were not named. -/
theorem removeEachSound (sound : Sound device) (gone : List Key) :
    Sound (gone.foldl removePeerLocked device) ∧
      keys (gone.foldl removePeerLocked device) = (keys device).filter (· ∉ gone) := by
  induction gone generalizing device with
  | nil => exact ⟨sound,by simp⟩
  | cons key rest ih =>
    obtain ⟨soundRest,keysRest⟩ := ih (removePeerLockedSound sound key)
    refine ⟨soundRest,?_⟩
    rw [List.foldl_cons,keysRest,removedKeys,List.filter_filter]
    refine List.filter_congr (fun k _ => ?_)
    by_cases here : k = key <;> simp [here]

theorem removeAllPeersEmpty (sound : Sound device) :
    (removeAllPeers device).keyMap = [] ∧ owners (removeAllPeers device) = [] := by
  refine ⟨rfl,List.eq_nil_iff_forall_not_mem.mpr (fun o mem => ?_)⟩
  obtain ⟨soundAfter,keysAfter⟩ := removeEachSound sound (keys device)
  have alive := soundAfter.alive o mem
  rw [keysAfter,List.mem_filter] at alive
  simp [alive.1] at alive

theorem removeAllPeersSound (sound : Sound device) : Sound (removeAllPeers device) := by
  obtain ⟨noPeers,noOwners⟩ := removeAllPeersEmpty sound
  have noKeys : keys (removeAllPeers device) = [] := by rw [keys,noPeers]; rfl
  refine ⟨by rw [noKeys]; exact List.nodup_nil,by rw [noKeys]; simp,fun o mem => ?_⟩
  rw [noOwners] at mem
  exact absurd mem (by simp)

theorem setPrivateKeySound {world : World} (sound : Sound device) (sk : Key) : Sound (setPrivateKey world device sk) := by
  unfold setPrivateKey
  split
  · exact sound
  · have removed := removePeerSound sound (world.publicKeyOf sk)
    refine ⟨removed.distinct,?_,removed.alive⟩
    show world.publicKeyOf sk ∉ keys (removePeer device (world.publicKeyOf sk))
    rw [removePeerKeys]
    simp

theorem newPeerSound {after : Device} (sound : Sound device) (other : device.publicKey ≠ key)
    (made : newPeer device key = some after) : Sound after ∧ key ∈ keys after := by
  unfold newPeer at made
  split at made
  · contradiction
  split at made
  · contradiction
  rename_i unknown
  cases Option.some.inj made
  have fresh : key ∉ keys device := fun mem => unknown (lookupPeerKeys.mpr mem)
  have added : keys {device with keyMap := device.keyMap ++ [(key,⟨zeroKey,none,0⟩)]} = keys device ++ [key] := by
    simp [keys]
  refine ⟨⟨?_,?_,fun o mem => ?_⟩,by rw [added]; simp⟩
  · rw [added]
    exact List.nodup_append.mpr ⟨sound.distinct,List.nodup_singleton key,by
      intro k mem l single same
      rw [List.mem_singleton] at single
      exact fresh (single ▸ same ▸ mem)⟩
  · rw [added]
    simp [sound.notOwn,other]
  · rw [added]
    exact List.mem_append_left _ (sound.alive o mem)

theorem updatePeerKeys {change : Peer → Peer} : keys (updatePeer device key change) = keys device := by
  simp only [keys,updatePeer,List.map_map]
  refine List.map_congr_left (fun entry _ => ?_)
  by_cases same : entry.1 = key <;> simp [same]

theorem updatePeerSound {change : Peer → Peer} (sound : Sound device) : Sound (updatePeer device key change) := by
  refine ⟨?_,?_,?_⟩
  · rw [updatePeerKeys]
    exact sound.distinct
  · rw [updatePeerKeys]
    exact sound.notOwn
  · intro o mem
    rw [updatePeerKeys]
    exact sound.alive o mem

/- Only a peer of the device is made an owner. -/
theorem callSound (sound : Sound device) {call : Call Key} (alive : ∀ p k, call = .insert p k → k ∈ keys device) :
    Sound {device with allowedips := device.allowedips ++ [call]} := by
  refine ⟨sound.distinct,sound.notOwn,fun o mem => ?_⟩
  rw [ownersCall] at mem
  cases call with
  | insert p k =>
    rcases List.mem_append.mp mem with old | new
    · exact sound.alive o (List.mem_of_mem_filter old)
    · rw [List.mem_singleton.mp new]
      exact alive p k rfl
  | remove p k => exact sound.alive o (List.mem_of_mem_filter mem)
  | removeByPeer k => exact sound.alive o (List.mem_of_mem_filter mem)

/- The sockets have nothing to do with the peers. -/
theorem soundFrame {after : Device} (sound : Sound device) (own : after.publicKey = device.publicKey)
    (peers : after.keyMap = device.keyMap) (table : after.allowedips = device.allowedips) : Sound after := by
  have sameKeys : keys after = keys device := by rw [keys,peers,keys]
  have sameOwners : owners after = owners device := by rw [owners,table,owners]
  refine ⟨?_,?_,?_⟩
  · rw [sameKeys]
    exact sound.distinct
  · rw [sameKeys,own]
    exact sound.notOwn
  · rw [sameKeys,sameOwners]
    exact sound.alive

end Peers

section Lines
variable {world : World} {s : Set}

theorem bindUpdateFrame (world : World) (device : Device) : (bindUpdate world device).1.publicKey = device.publicKey ∧
    (bindUpdate world device).1.keyMap = device.keyMap ∧
      (bindUpdate world device).1.allowedips = device.allowedips := by
  unfold bindUpdate
  split
  · exact ⟨rfl,rfl,rfl⟩
  split
  · exact ⟨rfl,rfl,rfl⟩
  split
  · exact ⟨rfl,rfl,rfl⟩
  · split
    · exact ⟨rfl,rfl,rfl⟩
    · split <;> exact ⟨rfl,rfl,rfl⟩

theorem bindSetMarkFrame (world : World) (device : Device) (mark : Nat) :
    (bindSetMark world device mark).1.publicKey = device.publicKey ∧
    (bindSetMark world device mark).1.keyMap = device.keyMap ∧
      (bindSetMark world device mark).1.allowedips = device.allowedips := by
  unfold bindSetMark
  dsimp only
  split
  · exact ⟨rfl,rfl,rfl⟩
  · split <;> exact ⟨rfl,rfl,rfl⟩

theorem firstIf {S E : Type} {P : S → Prop} {c : Prop} [Decidable c] {a b : S × E} (yes : P a.1) (no : P b.1) :
    P (if c then a else b).1 := by
  by_cases given : c
  · rwa [if_pos given]
  · rwa [if_neg given]

theorem handleDeviceLineSound {device : Device} (sound : Sound device) (key value : Text) :
    Sound (handleDeviceLine world device key value).1 := by
  unfold handleDeviceLine
  refine firstIf ?_ (firstIf ?_ (firstIf ?_ (firstIf (firstIf sound (removeAllPeersSound sound)) sound)))
  · cases fromMaybeZeroHex value with
    | none => exact sound
    | some sk => exact setPrivateKeySound sound sk
  · cases parseUint 16 value with
    | none => exact sound
    | some port =>
      obtain ⟨own,peers,table⟩ := bindUpdateFrame world {device with port}
      exact soundFrame sound own peers table
  · cases parseUint 32 value with
    | none => exact sound
    | some mark =>
      obtain ⟨own,peers,table⟩ := bindSetMarkFrame world device mark
      exact soundFrame sound own peers table

theorem handlePublicKeyLineSound (sound : SoundSet s) (value : Text) : SoundSet (handlePublicKeyLine s value).1 := by
  unfold handlePublicKeyLine
  cases loadExactHex value with
  | none => exact sound
  | some key =>
    dsimp only
    split
    · exact ⟨sound.device,fun _ _ same => by contradiction⟩
    rename_i other
    split
    · rename_i known
      refine ⟨sound.device,fun k c same => ?_⟩
      cases same
      exact lookupPeerKeys.mp known
    · cases made : newPeer s.device key with
      | none => exact ⟨sound.device,fun _ _ same => by contradiction⟩
      | some after =>
        obtain ⟨soundAfter,mem⟩ := newPeerSound sound.device other made
        refine ⟨soundAfter,fun k c same => ?_⟩
        cases same
        exact mem

theorem changePeerSound (sound : SoundSet s) (change : Peer → Peer) : SoundSet (changePeer s change) := by
  unfold changePeer
  split
  · refine ⟨updatePeerSound sound.device,fun key created same => ?_⟩
    show key ∈ keys (updatePeer s.device _ change)
    rw [updatePeerKeys]
    exact sound.current key created same
  · exact sound

theorem callTableSound (sound : SoundSet s) (call : Key → Call Key)
    (own : ∀ key p k, call key = .insert p k → k = key) : SoundSet (callTable s call) := by
  unfold callTable
  split
  · rename_i key created same
    have mem := sound.current key created same
    refine ⟨callSound sound.device (fun p k made => ?_),sound.current⟩
    rw [own key p k made]
    exact mem
  · exact sound

theorem dummySound {device : Device} (sound : Sound device) : SoundSet ⟨device,.dummy⟩ :=
  ⟨sound,fun _ _ same => by contradiction⟩

theorem handlePeerLineSound (sound : SoundSet s) (key value : Text) :
    SoundSet (handlePeerLine world s key value).1 := by
  unfold handlePeerLine
  refine firstIf (firstIf sound ?_) (firstIf (firstIf sound ?_) (firstIf ?_ (firstIf ?_ (firstIf ?_
    (firstIf (firstIf sound ?_) (firstIf ?_ (firstIf sound sound)))))))
  · split
    · exact dummySound (removePeerSound sound.device _)
    · exact sound
  · split
    · exact dummySound (removePeerSound sound.device _)
    · exact dummySound sound.device
  · cases loadExactHex value with
    | none => exact sound
    | some => exact changePeerSound sound _
  · cases parseAddrPort world.names value with
    | none => exact sound
    | some => exact changePeerSound sound _
  · cases parseUint 16 value with
    | none => exact sound
    | some => exact changePeerSound sound _
  · exact callTableSound sound _ (fun _ _ _ made => by cases made)
  · dsimp only
    split
    · exact sound
    · refine callTableSound sound _ (fun key p k made => ?_)
      split at made
      · cases made
        rfl
      · cases made

theorem setLineSound (sound : SoundSet s) (line : Text) : SoundSet (setLine world s line).1 := by
  unfold setLine
  split
  · exact sound
  dsimp only
  split
  · exact handlePublicKeyLineSound sound _
  split
  · exact ⟨handleDeviceLineSound sound.device _ _,fun _ _ same => by contradiction⟩
  · exact handlePeerLineSound sound _ _

theorem setLinesSound (sound : SoundSet s) (input : List Text) : SoundSet (setLines world s input).1 := by
  induction input generalizing s with
  | nil => exact sound
  | cons raw rest ih =>
    rw [setLines]
    split
    · exact sound
    have next : SoundSet (setLine world s (dropCr raw)).1 := setLineSound sound (dropCr raw)
    cases done : setLine world s (dropCr raw) with
    | mk after error =>
      rw [done] at next
      cases error with
      | none => exact ih next
      | some => exact next

theorem ipcSetSound {device : Device} (sound : Sound device) (input : Text) :
    Sound (ipcSetOperation world device input).1 :=
  (setLinesSound (s := ⟨device,.none⟩) ⟨sound,fun _ _ same => by contradiction⟩ (lines input)).device

end Lines

/- A device that was just made: no key, no peers. -/
def newDevice (up : Bool) : Device := ⟨up,zeroKey,zeroKey,0,0,[],[]⟩

theorem newDeviceSound (up : Bool) : Sound (newDevice up) :=
  ⟨List.nodup_nil,by simp [keys,newDevice],fun o mem => by simp [owners,newDevice] at mem⟩

def requests (world : World) (device : Device) (inputs : List Text) : Device :=
  inputs.foldl (fun d input => (ipcSetOperation world d input).1) device

theorem requestsSound {world : World} {device : Device} (sound : Sound device) (inputs : List Text) :
    Sound (requests world device inputs) := by
  induction inputs generalizing device with
  | nil => exact sound
  | cons input rest ih => exact ih (ipcSetSound sound input)

/- After any requests, whatever their texts, the table gives an address to a peer the device
has, under a key no other peer has and which is not the device's own. -/
theorem packetsGoToLivePeers (world : World) (up : Bool) (inputs : List Text) :
    let device := requests world (newDevice up) inputs
    (keys device).Nodup ∧ ∃ table, run apply empty device.allowedips = some table ∧
      ∀ (size : Size) (ip : Addr size), ∃ answer, lookup table ip = some answer ∧
        ∀ key, answer = some key → key ∈ keys device ∧ key ≠ device.publicKey := by
  intro device
  have sound : Sound device := requestsSound (newDeviceSound up) inputs
  obtain ⟨table,ran,tracks⟩ := runSimulated applyTracks emptyTracks device.allowedips
  refine ⟨sound.distinct,table,ran,fun size ip => ⟨_,lookupTracks tracks ip,fun key found => ?_⟩⟩
  obtain ⟨route,best,rfl⟩ := Option.map_eq_some_iff.mp found
  obtain ⟨addr,bits,valid,peer,mem,same⟩ := memRoutes.mp (lookupSome best).1
  have alive : route.hop ∈ keys device := by
    rw [same]
    exact sound.alive _ mem
  exact ⟨alive,fun own => sound.notOwn (own ▸ alive)⟩

end WebosWireguard.UapiSession
