import WebosWireguard.TransitionRun
import WebosWireguard.UploadHandler

/-! The uploads directory over a history of accepted uploads, served one after the other
by any number of servers. Whatever else writes below the directory is left out, and so is
the clock: each upload brings the second it is stamped with. -/
namespace WebosWireguard.BackupFiles
open TextLines UploadHandler TransitionRun

structure Visit where
  token : Text
  failedAttempts : Nat
  io : Io
  request : Request

def Visit.respond (v : Visit) (files : Files) : Response :=
  upload v.token v.io v.failedAttempts files v.request

def accept (files : Files) (v : Visit) : Option Files :=
  match (v.respond files).answer with
  | .success _ _ _ => some (v.respond files).files
  | .error _ _ _ => none

def Visit.file (v : Visit) : Option FilePart := v.request.form.bind Form.conf
def Visit.data (v : Visit) : Text := (v.file.map FilePart.data).getD []
def Visit.backup (v : Visit) : Text := backupPath v.io.stamp ((v.file.map FilePart.name).getD [])

/-- Whatever name the client sends, the backup is a file of the uploads directory itself. -/
theorem backupDirectChild (ts : Stamp) (name : Text) :
    FilePath.DirectChild (base ++ "/uploads".toList) (backupPath ts name) ∧
      "uploaded-".toList <+: FilePath.lastElement (backupPath ts name) ∧
      backupPath ts name ≠ confPath ∧ backupPath ts name ≠ addressPath := by
  obtain ⟨last,path,whole⟩ := backupPathBelow ts name
  have file : '/' ∉ "uploaded-".toList ++ last := by simp [whole]
  have below : backupPath ts name = base ++ "/uploads".toList ++ '/'::("uploaded-".toList ++ last) := by
    rw [path]
    simp
  refine ⟨⟨"uploaded-".toList ++ last,below,by simp,by simp,by simp,file⟩,?_,backupApart ts name⟩
  rw [below,FilePath.lastElementChild (by simp) file]
  exact List.prefix_append _ _

def uploads : Text := base ++ "/uploads/".toList

def Present (files : Files) (data : Text) : Prop :=
  ∃ path, uploads <+: path ∧ files path = some data

theorem backupInside (v : Visit) : uploads <+: v.backup := by
  obtain ⟨last,path,_⟩ := backupPathBelow v.io.stamp ((v.file.map FilePart.name).getD [])
  refine ⟨"uploaded-".toList ++ last,?_⟩
  unfold Visit.backup uploads
  rw [path]
  simp

theorem uploadsApart {path : Text} (inside : uploads <+: path) :
    path ≠ confPath ∧ path ≠ addressPath := by
  obtain ⟨tail,rfl⟩ := inside
  have conf : confPath = base ++ "/conf/wg0.conf".toList := rfl
  have address : addressPath = base ++ "/conf/address".toList := rfl
  unfold uploads
  rw [conf,address,List.append_assoc]
  constructor
  · intro same
    have h := List.append_cancel_left same
    simp at h
  · intro same
    have h := List.append_cancel_left same
    simp at h

theorem judgedFile {token : Text} {r : Request} {job : Job} (judged : judge token r = .accepted job) :
    ∃ file, r.form.bind Form.conf = some file ∧ job.name = file.name ∧ job.data = file.data := by
  unfold judge at judged
  split at judged
  · split at judged
    · contradiction
    rename_i form given
    dsimp only at judged
    split at judged
    · split at judged
      · contradiction
      rename_i file attached
      unfold judgeFile at judged
      split at judged
      · split at judged
        · contradiction
        cases judged
        exact ⟨file,by simp [given,attached],rfl,rfl⟩
      · contradiction
    · contradiction
  · contradiction

/- A stored upload has written its three files, the backup first. -/
theorem storeStored {io : Io} {job : Job} {files : Files} {lang backup address}
    (stored : (store io job files).1 = .success lang backup address) {path : Text}
    (inside : uploads <+: path) :
    (store io job files).2 path =
      if path = backupPath io.stamp job.name then some job.data else files path := by
  obtain ⟨conf,addr⟩ := uploadsApart inside
  unfold store at stored ⊢
  split at stored
  · contradiction
  split at stored
  · contradiction
  unfold storeBackup at stored ⊢
  dsimp only at stored ⊢
  cases kept : io.backup with
  | failed message left => simp [kept] at stored
  | ok =>
    simp only [kept] at stored ⊢
    unfold storeConf at stored ⊢
    dsimp only at stored ⊢
    cases written : io.conf with
    | failed message left => simp [written] at stored
    | ok =>
      simp only [written] at stored ⊢
      unfold storeAddress at stored ⊢
      dsimp only at stored ⊢
      cases last : io.address with
      | failed message left => simp [last] at stored
      | ok => simp [Write.apply,Function.update_apply,conf,addr]

theorem acceptedFiles {v : Visit} {files after : Files} (accepted : accept files v = some after)
    {path : Text} (inside : uploads <+: path) :
    after path = if path = v.backup then some v.data else files path := by
  unfold accept at accepted
  split at accepted
  · rename_i lang backup address answer
    cases Option.some.inj accepted
    unfold Visit.respond upload at answer ⊢
    cases judged : judge v.token v.request with
    | refused given =>
      simp only [judged] at answer
      have bad := refusedIsError judged
      rw [answer] at bad
      exact bad.elim
    | wrongCode given =>
      simp only [judged,lockedAnswer] at answer
      split at answer <;> contradiction
    | accepted job =>
      simp only [judged] at answer ⊢
      obtain ⟨file,attached,name,data⟩ := judgedFile judged
      rw [storeStored answer inside]
      simp [Visit.backup,Visit.data,Visit.file,attached,name,data]
  · contradiction

/-! A backup is there at the end unless a later upload has written over it. -/

theorem laterKeeps {visits : List Visit} {files final : Files} {path data : Text}
    (inside : uploads <+: path) (here : files path = some data)
    (spared : ∀ v ∈ visits, v.backup = path → v.data = data)
    (ran : run accept files visits = some final) : final path = some data := by
  induction visits generalizing files with
  | nil =>
    cases Option.some.inj ran
    exact here
  | cons v rest ih =>
    obtain ⟨next,accepted,later⟩ := runCons ran
    refine ih ?_ (fun u mem => spared u (List.mem_cons_of_mem v mem)) later
    rw [acceptedFiles accepted inside]
    split
    · rename_i same
      rw [spared v (by simp) same.symm]
    · exact here

theorem lastWriter {visits : List Visit} {files final : Files} {path data : Text}
    (inside : uploads <+: path) (ran : run accept files visits = some final)
    (there : final path = some data) :
    (files path = some data ∧ ∀ v ∈ visits, v.backup ≠ path) ∨
      ∃ earlier u later, visits = earlier ++ u::later ∧ u.data = data ∧ u.backup = path ∧
        ∀ v ∈ later, v.backup ≠ path := by
  induction visits generalizing files with
  | nil =>
    cases Option.some.inj ran
    exact .inl ⟨there,by simp⟩
  | cons v rest ih =>
    obtain ⟨next,accepted,later⟩ := runCons ran
    rcases ih later with ⟨here,unwritten⟩ | ⟨earlier,u,after,split,same,own,unwritten⟩
    · rw [acceptedFiles accepted inside] at here
      split at here
      · rename_i own
        exact .inr ⟨[],v,rest,rfl,Option.some.inj here,own.symm,unwritten⟩
      · rename_i other
        exact .inl ⟨here,List.forall_mem_cons.mpr ⟨Ne.symm other,unwritten⟩⟩
    · exact .inr ⟨v::earlier,u,after,by simp [split],same,own,unwritten⟩

/- Some upload of these bytes is followed by none of other bytes under the same name. -/
def Spared (visits : List Visit) (data : Text) : Prop :=
  ∃ earlier u later, visits = earlier ++ u::later ∧ u.data = data ∧
    ∀ v ∈ later, v.backup = u.backup → v.data = u.data

theorem sparedPresent {visits : List Visit} {files final : Files} {data : Text}
    (ran : run accept files visits = some final) (spared : Spared visits data) :
    Present final data := by
  obtain ⟨earlier,u,later,rfl,rfl,alike⟩ := spared
  rw [runAppend] at ran
  obtain ⟨before,_,ran⟩ := Option.bind_eq_some_iff.mp ran
  obtain ⟨next,accepted,ran⟩ := runCons ran
  have inside := backupInside u
  have here : next u.backup = some u.data := by rw [acceptedFiles accepted inside,if_pos rfl]
  exact ⟨u.backup,inside,laterKeeps inside here alike ran⟩

/-- From an empty uploads directory, the bytes of every accepted upload are there at the end
if and only if for each of them some upload of the same bytes is not written over: no later
one has the same second, the same base name and other bytes. -/
theorem backupsKeptIff {visits : List Visit} {files final : Files}
    (fresh : ∀ path, uploads <+: path → files path = none)
    (ran : run accept files visits = some final) :
    (∀ v ∈ visits, Present final v.data) ↔ ∀ v ∈ visits, Spared visits v.data := by
  refine forall₂_congr (fun v _ => ⟨fun present => ?_,sparedPresent ran⟩)
  obtain ⟨path,inside,there⟩ := present
  rcases lastWriter inside ran there with ⟨old,_⟩ | ⟨earlier,u,later,split,same,own,unwritten⟩
  · rw [fresh path inside] at old
    contradiction
  · refine ⟨earlier,u,later,split,same,fun w mem clash => ?_⟩
    exact absurd (clash.trans own) (unwritten w mem)

def diskFine (stamp : Stamp) : Io where
  mkdirConf := none
  mkdirUploads := none
  stamp := stamp
  backup := .ok
  conf := .ok
  address := .ok

def visitAt (stamp : Stamp) (key : Text) : Visit :=
  ⟨sampleToken,0,diskFine stamp,sampleRequest key "10.0.0.2".toList⟩

def nextStamp : Stamp := ⟨"20260101-120001".toList,by decide⟩

def noonVisit : Visit := visitAt sampleStamp "k".toList
def nextVisit : Visit := visitAt nextStamp "l".toList

theorem nextSecondKeepsBoth :
    ∃ final, run accept (fun _ => none) [noonVisit,nextVisit] = some final ∧
      ∀ v ∈ [noonVisit,nextVisit], Present final v.data := by
  have ran : ∃ final, run accept (fun _ => none) [noonVisit,nextVisit] = some final := ⟨_,rfl⟩
  obtain ⟨final,ran⟩ := ran
  refine ⟨final,ran,(backupsKeptIff (fun _ _ => rfl) ran).mpr ?_⟩
  intro v mem
  rcases List.mem_pair.mp mem with rfl | rfl
  · refine ⟨[],noonVisit,[nextVisit],rfl,rfl,fun u mem clash => ?_⟩
    cases List.mem_singleton.mp mem
    exact absurd clash (by decide +kernel)
  · exact ⟨[noonVisit],nextVisit,[],rfl,rfl,by simp⟩

/- Another upload of the same second, with the same file name. -/
def sameSecond : Visit := visitAt sampleStamp "l".toList

theorem sameSecondReplacesBackup :
    ¬ ∀ visits files final, (∀ path, uploads <+: path → files path = none) →
      run accept files visits = some final → ∀ v ∈ visits, Present final v.data := by
  intro every
  have ran : ∃ final, run accept (fun _ => none) [noonVisit,sameSecond] = some final := ⟨_,rfl⟩
  obtain ⟨final,ran⟩ := ran
  obtain ⟨path,inside,there⟩ := every [noonVisit,sameSecond] (fun _ => none) final (fun _ _ => rfl) ran
    noonVisit (by simp)
  have other : sameSecond.data ≠ noonVisit.data := by decide +kernel
  have clash : sameSecond.backup = noonVisit.backup := by decide +kernel
  rcases lastWriter inside ran there with ⟨old,_⟩ | ⟨earlier,u,later,split,same,own,unwritten⟩
  · contradiction
  · match earlier,split with
    | [],split =>
      obtain ⟨rfl,rest⟩ := List.cons.inj split
      exact unwritten sameSecond (by simp [← rest]) (clash.trans own)
    | [_],split =>
      obtain ⟨_,rest⟩ := List.cons.inj split
      obtain ⟨rfl,_⟩ := List.cons.inj rest
      exact other same
    | _::_::_,split => simp at split

end WebosWireguard.BackupFiles
