import Mathlib.Logic.Function.Basic
import WebosWireguard.ConvertConfig
import WebosWireguard.FilePath

/-! The handler of POST /upload, run on its own. Directory creations and file writes may
fail; a failed write leaves its target with any content or without the file. The form has
been parsed by the HTTP library within the 2 MiB limit on the body, so that the reader's
own limit cuts nothing off. HTML templates and log lines are left out. -/
namespace WebosWireguard.UploadHandler
open TextLines ConvertConfig FilePath

def base : Text := "/var/lib/webosbrew/wireguard".toList
def maxFailedAttempts : Nat := 5

inductive Lang where
  | en
  | es
  deriving DecidableEq, Repr

def normalizeLang (lang : Text) : Lang :=
  let lang := lower (trimSpace lang)
  if lang = "es".toList ∨ lang = "es-es".toList then .es else .en

inductive Key where
  | methodNotAllowed
  | badUpload
  | invalidPin
  | tooManyAttempts
  | missingFile
  | readFailed
  | invalidConfig
  deriving DecidableEq, Repr

def tr : Lang → Key → Text
  | .en,.methodNotAllowed => "Method not allowed".toList
  | .en,.badUpload => "The upload could not be processed.".toList
  | .en,.invalidPin => "Invalid access code.".toList
  | .en,.tooManyAttempts => "Too many incorrect access codes. Start the upload server again.".toList
  | .en,.missingFile => "Missing configuration file.".toList
  | .en,.readFailed => "Could not read the uploaded file.".toList
  | .en,.invalidConfig => "Invalid WireGuard configuration".toList
  | .es,.methodNotAllowed => "Método no permitido".toList
  | .es,.badUpload => "No se ha podido procesar la subida.".toList
  | .es,.invalidPin => "Código de acceso incorrecto.".toList
  | .es,.tooManyAttempts => "Demasiados códigos incorrectos. Inicia de nuevo el servidor de subida.".toList
  | .es,.missingFile => "Falta el archivo de configuración.".toList
  | .es,.readFailed => "No se ha podido leer el archivo subido.".toList
  | .es,.invalidConfig => "Configuración WireGuard no válida".toList

structure FilePart where
  name : Text
  data : Text
  readable : Bool
  deriving DecidableEq, Repr

structure Form where
  token : Text
  conf : Option FilePart
  deriving DecidableEq, Repr

structure Request where
  post : Bool
  queryLang : Text
  formLang : Text
  form : Option Form
  deriving DecidableEq, Repr

def langFromRequest (r : Request) : Lang :=
  normalizeLang (if r.queryLang = [] then r.formLang else r.queryLang)

inductive Answer where
  | error (lang : Lang) (status : Nat) (message : Text)
  | success (lang : Lang) (backup address : Text)
  deriving DecidableEq, Repr

structure Job where
  lang : Lang
  name : Text
  data : Text
  converted : Text
  address : Text
  deriving DecidableEq, Repr

inductive Verdict where
  | refused (answer : Answer)
  | wrongCode (lang : Lang)
  | accepted (job : Job)
  deriving DecidableEq, Repr

def judgeFile (lang : Lang) (file : FilePart) : Verdict :=
  if file.readable then
    match convertConfig file.data with
    | .error failure =>
      .refused (.error lang 400 (tr lang .invalidConfig ++ ": ".toList ++ failure.message))
    | .ok (converted,address) => .accepted ⟨lang,file.name,file.data,converted,address⟩
  else .refused (.error lang 400 (tr lang .readFailed))

def judge (token : Text) (r : Request) : Verdict :=
  if r.post then
    match r.form with
    | none => .refused (.error (langFromRequest r) 400 (tr (langFromRequest r) .badUpload))
    | some form =>
      let lang := normalizeLang r.formLang
      if form.token = token then
        match form.conf with
        | none => .refused (.error lang 400 (tr lang .missingFile))
        | some file => judgeFile lang file
      else .wrongCode lang
  else .refused (.error (langFromRequest r) 405 (tr (langFromRequest r) .methodNotAllowed))

def lockedAnswer (lang : Lang) (locked : Bool) : Answer :=
  if locked then .error lang 429 (tr lang .tooManyAttempts) else .error lang 403 (tr lang .invalidPin)

def confPath : Text := join [base,"conf".toList,"wg0.conf".toList]
def addressPath : Text := join [base,"conf".toList,"address".toList]

def Stamp : Type := {t : Text // ∀ c ∈ t, c.isDigit = true ∨ c = '-'}

def backupPath (ts : Stamp) (name : Text) : Text :=
  join [base,"uploads".toList,"uploaded-".toList ++ ts.val ++ "-".toList ++ lastElement name]

inductive Write where
  | ok
  | failed (message : Text) (left : Option Text)
  deriving DecidableEq, Repr

abbrev Files := Text → Option Text

def Write.apply (files : Files) (path content : Text) : Write → Files
  | .ok => Function.update files path (some content)
  | .failed _ left => Function.update files path left

theorem applyOther {files : Files} {path content other} (w : Write) (apart : other ≠ path) :
    w.apply files path content other = files other := by
  cases w <;> simp [Write.apply,apart]

structure Io where
  mkdirConf : Option Text
  mkdirUploads : Option Text
  stamp : Stamp
  backup : Write
  conf : Write
  address : Write

def storeAddress (io : Io) (job : Job) (backup : Text) (files : Files) : Answer × Files :=
  let files := io.address.apply files addressPath (job.address ++ ['\n'])
  match io.address with
  | .failed message _ => (.error job.lang 500 message,files)
  | .ok => (.success job.lang backup job.address,files)

def storeConf (io : Io) (job : Job) (backup : Text) (files : Files) : Answer × Files :=
  let files := io.conf.apply files confPath job.converted
  match io.conf with
  | .failed message _ => (.error job.lang 500 message,files)
  | .ok => storeAddress io job backup files

def storeBackup (io : Io) (job : Job) (files : Files) : Answer × Files :=
  let backup := backupPath io.stamp job.name
  let files := io.backup.apply files backup job.data
  match io.backup with
  | .failed message _ => (.error job.lang 500 message,files)
  | .ok => storeConf io job backup files

def store (io : Io) (job : Job) (files : Files) : Answer × Files :=
  match io.mkdirConf with
  | some message => (.error job.lang 500 message,files)
  | none =>
    match io.mkdirUploads with
    | some message => (.error job.lang 500 message,files)
    | none => storeBackup io job files

structure Response where
  answer : Answer
  files : Files
  failedAttempts : Nat
  shutdownServer : Bool

def upload (token : Text) (io : Io) (failedAttempts : Nat) (files : Files) (r : Request) : Response :=
  match judge token r with
  | .refused answer => ⟨answer,files,failedAttempts,false⟩
  | .wrongCode lang =>
    let locked := maxFailedAttempts ≤ failedAttempts+1
    ⟨lockedAnswer lang locked,files,failedAttempts+1,locked⟩
  | .accepted job =>
    let (answer,files) := store io job files
    ⟨answer,files,failedAttempts,match answer with | .success _ _ _ => true | .error _ _ _ => false⟩

theorem backupPathBelow (ts : Stamp) (name : Text) :
    ∃ last, backupPath ts name = base ++ "/uploads/uploaded-".toList ++ last ∧ '/' ∉ last := by
  have plain : '/' ∉ "uploaded-".toList ++ ts.val ++ "-".toList := by
    have stamp : '/' ∉ ts.val := fun mem => by rcases ts.property _ mem with h | h <;> simp at h
    simp [stamp]
  obtain ⟨last,post,⟨tail,rfl⟩,whole,empty,split⟩ := splitStem plain name
  have kept := @cleanLast (base.splitOn '/' ++ ["uploads".toList])
    ("uploaded-".toList ++ ts.val ++ "-".toList ++ tail) (by simp) (by simp) post empty
  have parts : [base,"uploads".toList,"uploaded-".toList ++ ts.val ++ "-".toList ++ lastElement name].flatMap
      (List.splitOn '/') = (base.splitOn '/' ++ ["uploads".toList]) ++
        ("uploaded-".toList ++ ts.val ++ "-".toList ++ tail)::post := by
    simp only [List.flatMap_cons,List.flatMap_nil,List.append_nil,split]
    rfl
  have above : clean (base.splitOn '/' ++ ["uploads".toList]) ≠ [] := by decide
  have directory : render (clean (base.splitOn '/' ++ ["uploads".toList])) = base ++ "/uploads".toList := rfl
  refine ⟨ts.val ++ "-".toList ++ tail,?_,fun mem => whole (by simpa using mem)⟩
  unfold backupPath join
  rw [parts,kept,renderConcat above,directory]
  simp

theorem backupApart (ts : Stamp) (name : Text) :
    backupPath ts name ≠ confPath ∧ backupPath ts name ≠ addressPath := by
  obtain ⟨last,path,_⟩ := backupPathBelow ts name
  rw [path,List.append_assoc]
  constructor
  · intro same
    have h := List.append_cancel_left (same.trans (show confPath = base ++ "/conf/wg0.conf".toList from rfl))
    simp at h
  · intro same
    have h := List.append_cancel_left (same.trans (show addressPath = base ++ "/conf/address".toList from rfl))
    simp at h

def Answer.IsError : Answer → Prop
  | .error _ _ _ => True
  | .success _ _ _ => False

theorem refusedIsError {token r answer} (judged : judge token r = .refused answer) : answer.IsError := by
  unfold judge at judged
  split at judged
  · split at judged
    · cases judged
      trivial
    · dsimp only at judged
      split at judged
      · split at judged
        · cases judged
          trivial
        · unfold judgeFile at judged
          split at judged
          · split at judged <;> cases judged
            trivial
          · cases judged
            trivial
      · cases judged
  · cases judged
    trivial

def Kept (before after : Files) : Prop :=
  after confPath = before confPath ∧ after addressPath = before addressPath

def ErrorKeeps (files : Files) (result : Answer × Files) : Prop :=
  result.1.IsError → Kept files result.2

theorem pathsApart : confPath ≠ addressPath := by decide

theorem storeAddressKeeps {io job backup files now} :
    ErrorKeeps files (storeAddress io job backup now) ↔
      match io.address with
      | .ok => True
      | .failed _ left => now confPath = files confPath ∧ left = files addressPath := by
  unfold ErrorKeeps storeAddress
  cases io.address with
  | ok => simp [Answer.IsError]
  | failed message left => simp [Answer.IsError,Kept,Write.apply,pathsApart]

/-- Once the backup is made a failing write must leave what was there, and the new wg0.conf
must be the old one if the address then fails. -/
def WritesSafe (io : Io) (job : Job) (files : Files) : Prop :=
  match io.conf,io.address with
  | .failed _ left,_ => left = files confPath
  | .ok,.ok => True
  | .ok,.failed _ left => files confPath = some job.converted ∧ left = files addressPath

theorem storeConfKeeps {io job backup files now} (address : now addressPath = files addressPath) :
    ErrorKeeps files (storeConf io job backup now) ↔
      WritesSafe io job files := by
  have apart : addressPath ≠ confPath := pathsApart.symm
  unfold storeConf WritesSafe
  cases io.conf with
  | ok =>
    dsimp only
    rw [storeAddressKeeps]
    cases io.address with
    | ok => rfl
    | failed message left =>
      simp only [Write.apply,Function.update_self]
      rw [eq_comm]
  | failed message left => simp [ErrorKeeps,Answer.IsError,Kept,Write.apply,apart,address]

def StoreSafe (token : Text) (io : Io) (files : Files) (r : Request) : Prop :=
  ∀ job, judge token r = .accepted job → io.mkdirConf = none → io.mkdirUploads = none →
    io.backup = .ok → WritesSafe io job files

theorem storeKeeps {io job files} :
    ErrorKeeps files (store io job files) ↔
      (io.mkdirConf = none → io.mkdirUploads = none → io.backup = .ok → WritesSafe io job files) := by
  unfold store
  cases io.mkdirConf with
  | some message => simp [ErrorKeeps,Kept]
  | none =>
    cases io.mkdirUploads with
    | some message => simp [ErrorKeeps,Kept]
    | none =>
      obtain ⟨conf,address⟩ := backupApart io.stamp job.name
      unfold storeBackup
      cases io.backup with
      | failed message left => simp [ErrorKeeps,Kept,Write.apply,conf.symm,address.symm]
      | ok =>
        dsimp only
        rw [storeConfKeeps (by simp [Write.apply,address.symm])]
        simp

theorem refusedUploadIff (token : Text) (io : Io) (failedAttempts : Nat) (files : Files) (r : Request) :
    ((upload token io failedAttempts files r).answer.IsError →
      Kept files (upload token io failedAttempts files r).files) ↔ StoreSafe token io files r := by
  unfold upload StoreSafe
  cases judge token r with
  | refused answer => simp [Kept]
  | wrongCode lang => simp [Kept]
  | accepted job =>
    have h := @storeKeeps io job files
    simpa [ErrorKeeps] using h

def sampleToken : Text := "5f3a91c0".toList
def sampleStamp : Stamp := ⟨"20260101-120000".toList,by decide⟩

def sampleConf (key address : Text) : Text :=
  "[Interface]\nPrivateKey = ".toList ++ key ++ "\nAddress = ".toList ++ address

def sampleRequest (key address : Text) : Request :=
  ⟨true,[],[],some ⟨sampleToken,some ⟨"wg0.conf".toList,sampleConf key address,true⟩⟩⟩

def fullDisk : Io where
  mkdirConf := none
  mkdirUploads := none
  stamp := sampleStamp
  backup := .ok
  conf := .ok
  address := .failed "no space left on device".toList none

/- The disk is full when the address is written: wg0.conf is the new one. -/
theorem fullDiskReplacesConf :
    ¬ ∀ token io failedAttempts files r,
      (upload token io failedAttempts files r).answer.IsError →
        Kept files (upload token io failedAttempts files r).files := by
  intro every
  have kept := every sampleToken fullDisk 0 (fun _ => none) (sampleRequest "k".toList "10.0.0.2".toList) trivial
  exact absurd kept.1 (by decide)

end WebosWireguard.UploadHandler
