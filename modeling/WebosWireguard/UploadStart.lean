import Mathlib.Data.List.DropRight
import WebosWireguard.TextLines
import WebosWireguard.TransitionRun

/-! upload-start.sh beside the wg-upload process it starts and the one that ran before it,
step by step. A SIGTERM ends a process some time after it was sent, and until then the
process goes on. The port is taken by these two processes only, the ten minutes are over
after the bind at the earliest, and the search for the LAN address and the log are left to
their results. Requests are those of UploadServer. -/
namespace WebosWireguard.UploadStart
open TextLines TransitionRun

inductive Who where
  | previous
  | spawned
  deriving DecidableEq, Repr

/- Where main stands. An exit keeps whether the process has had the port. -/
inductive Stage where
  | absent
  | created
  | truncated (inode : Nat)
  | written
  | listening
  | returning
  | exited (bound : Bool)
  deriving DecidableEq, Repr

def Stage.alive : Stage → Bool
  | .absent | .exited _ => false
  | _ => true

def Stage.bound : Stage → Bool
  | .listening | .returning => true
  | .exited bound => bound
  | _ => false

structure Process where
  token : Text
  stage : Stage
  killed : Bool
  deriving DecidableEq, Repr

def Process.signal (p : Process) : Process := if p.stage.alive then {p with killed := true} else p

structure TokenFile where
  inode : Nat
  content : Text
  deriving DecidableEq, Repr

inductive Place where
  | mkdirRun
  | checkBin
  | killRecorded
  | killAll
  | removeToken
  | detectIp
  | writeUrl
  | spawn
  | recordPid
  | poll (i : Nat)
  | probe (i : Nat)
  | confirm
  | readToken
  | probeLast (token : Text)
  | announce (token : Text)
  | exited (rc : Nat)
  deriving DecidableEq, Repr

structure State where
  place : Place
  output : List Text
  previous : Process
  spawned : Process
  port : Option Who
  tokenFile : Option TokenFile
  pidFile : Option Who
  nextInode : Nat
  deriving DecidableEq, Repr

def State.process (s : State) : Who → Process
  | .previous => s.previous
  | .spawned => s.spawned

def State.put (s : State) (p : Process) : Who → State
  | .previous => {s with previous := p}
  | .spawned => {s with spawned := p}

def State.move (s : State) (who : Who) (stage : Stage) : State :=
  s.put {s.process who with stage := stage} who

/- `given` is WG_UPLOAD_TOKEN as the script inherits it, empty when it is not set. -/
structure Env where
  here : Text
  binExecutable : Bool
  lanIp : Text
  given : Text
  random : Fin 4 → Fin 256

def hexByte (b : Fin 256) : Text := [Nat.digitChar (b.val/16),Nat.digitChar (b.val%16)]

def randomToken (b : Fin 4 → Fin 256) : Text := (List.ofFn b).flatMap hexByte

def token (env : Env) : Text := if env.given = [] then randomToken env.random else env.given

def tokenLine (token : Text) : Text := token ++ ['\n']

/- `$(cat file)` drops the newlines at the end. -/
def capture (content : Text) : Text := content.rdropWhile (· == '\n')

/-! The server. -/

/- The end of a process closes its listener; a fatal error or a signal skips the deferred
removal of the token file. -/
def exit (s : State) (who : Who) : State :=
  {s with port := if s.port = some who then none else s.port}.move who (.exited (s.process who).stage.bound)

/- os.WriteFile opens with O_CREATE|O_TRUNC and then writes to what it has opened, also
when the name has been removed or given to another file since. -/
def openToken (s : State) (who : Who) : State :=
  match s.tokenFile with
  | some f => {s with tokenFile := some ⟨f.inode,[]⟩}.move who (.truncated f.inode)
  | none => {s with tokenFile := some ⟨s.nextInode,[]⟩, nextInode := s.nextInode+1}.move who (.truncated s.nextInode)

def writeToken (s : State) (who : Who) (inode : Nat) : State :=
  let line := tokenLine (s.process who).token
  {s with tokenFile := s.tokenFile.map (fun (f : TokenFile) =>
    if f.inode = inode then ⟨f.inode,line ++ f.content.drop line.length⟩ else f)}.move who .written

def listen (s : State) (who : Who) : State :=
  match s.port with
  | none => {s with port := some who}.move who .listening
  | some _ => exit s who

def main (s : State) (who : Who) (fails : Bool) : Option State :=
  match (s.process who).stage with
  | .created => some (if fails then exit s who else openToken s who)
  | .truncated inode => some (if fails then exit s who else writeToken s who inode)
  | .written => some (listen s who)
  | .returning => some ({s with tokenFile := none}.move who (.exited true))
  | _ => none

/- Shutdown closes the listener, and ListenAndServe returns at once. -/
def shutdownServer (s : State) (who : Who) : Option State :=
  if (s.process who).stage = .listening then some ({s with port := none}.move who .returning) else none

def die (s : State) (who : Who) : Option State :=
  if (s.process who).killed ∧ (s.process who).stage.alive then some (exit s who) else none

/-! The script. -/

def say (s : State) (lines : List Text) : State := {s with output := s.output ++ lines}

def go (s : State) (place : Place) : State := {s with place := place}

def orExit (s : State) (fails : Bool) (place : Place) : State := if fails then go s (.exited 1) else go s place

def failWith (s : State) (message : Text) : State := go (say s [message]) (.exited 1)

/- An ended child that the shell has not waited for still answers to `kill -0`. -/
def killZero (s : State) (zombie : Bool) : Bool :=
  match s.pidFile with
  | none => false
  | some who => (s.process who).stage.alive || (who = .spawned && zombie)

def filled (s : State) : Bool := s.tokenFile.any (fun f => f.content ≠ [])

def announcement (ip token : Text) : List Text :=
  ["Upload server started".toList,[],"URL: http://".toList ++ ip ++ ":8088".toList,"CODE: ".toList ++ token,
    "The server stops after 10 minutes, five wrong codes, or one successful upload.".toList,[],
    "Open that URL from your computer, enter the access code and upload wg0.conf.".toList]

def launch (env : Env) (s : State) (fails : Bool) : State :=
  {s with place := .recordPid, spawned := ⟨token env,if fails then .exited false else .created,false⟩}

def script (env : Env) (s : State) (fails zombie : Bool) : Option State :=
  match s.place with
  | .mkdirRun => some (orExit s fails .checkBin)
  | .checkBin =>
    some (if env.binExecutable then go s .killRecorded
      else failWith s ("ERROR: does not exist ".toList ++ env.here ++ "/../bin/wg-upload".toList))
  | .killRecorded =>
    some (match s.pidFile with
      | none => go s .killAll
      | some who => go (s.put (s.process who).signal who) .killAll)
  | .killAll =>
    some {s with place := .removeToken, previous := s.previous.signal, spawned := s.spawned.signal}
  | .removeToken => some (orExit (if fails then s else {s with tokenFile := none}) fails .detectIp)
  | .detectIp =>
    some (if env.lanIp = [] then failWith s "ERROR: cannot detect the LAN IP for the upload server".toList
      else go s .writeUrl)
  | .writeUrl => some (orExit s fails .spawn)
  | .spawn => some (launch env s fails)
  | .recordPid => some (orExit (if fails then s else {s with pidFile := some .spawned}) fails (.poll 0))
  | .poll i => some (go s (if !filled s && i < 10 then .probe i else .confirm))
  | .probe i =>
    some (if killZero s zombie then go s (.poll (i+1))
      else failWith s "ERROR: upload server stopped before creating its access code".toList)
  | .confirm =>
    some (if filled s then go s .readToken
      else failWith s "ERROR: timed out waiting for the upload access code".toList)
  | .readToken =>
    some (match s.tokenFile with
      | none => go s (.exited 1)
      | some f => go s (.probeLast (capture f.content)))
  | .probeLast token =>
    some (if killZero s zombie then go s (.announce token)
      else failWith s "ERROR: upload server stopped during startup".toList)
  | .announce token => some (go (say s (announcement env.lanIp token)) (.exited 0))
  | .exited _ => none

inductive Action where
  | script (fails zombie : Bool)
  | main (who : Who) (fails : Bool)
  | shutdown (who : Who)
  | die (who : Who)
  deriving DecidableEq, Repr

def step (env : Env) (s : State) : Action → Option State
  | .script fails zombie => script env s fails zombie
  | .main who fails => main s who fails
  | .shutdown who => shutdownServer s who
  | .die who => die s who

structure Initial (s : State) : Prop where
  place : s.place = .mkdirRun
  output : s.output = []
  port : ∀ who, s.port = some who ↔ (s.process who).stage = .listening
  spawned : s.spawned.stage = .absent
  pidFile : s.pidFile ≠ some .spawned

def Announced (s : State) (code : Text) : Prop := s.place = .exited 0 ∧ "CODE: ".toList ++ code ∈ s.output

/- The code printed is that of the server that listens, and the recorded server, which is
the spawned one, has not ended without the port. -/
def Real (s : State) : Prop :=
  ∀ code, Announced s code → s.spawned.stage ≠ .exited false ∧
    ∀ who, s.port = some who → (s.process who).token = code

/-! One step from a settled start. -/

/- The process has given up the port and its writes for good. -/
def Stage.harmless : Stage → Bool
  | .absent | .returning | .exited _ => true
  | _ => false

/- The process has written its token and has not ended without the port. -/
def Stage.wrote : Stage → Bool
  | .written | .listening | .returning | .exited true => true
  | _ => false

def content (s : State) : Text := s.tokenFile.elim [] TokenFile.content

structure Settled (env : Env) (s : State) : Prop where
  previous : s.previous.stage.harmless = true
  code : s.spawned.token = token env
  unkilled : s.spawned.killed = false
  port : ∀ who, s.port = some who → (s.process who).stage = .listening
  opened : ∀ inode, s.spawned.stage = .truncated inode → ∀ f, s.tokenFile = some f → f.inode = inode
  unwritten : s.spawned.stage.wrote = false → content s = []
  file : s.spawned.stage.wrote = true → ∀ f, s.tokenFile = some f → f.content = tokenLine (token env)

section Settled
variable {env : Env} {s t : State}

theorem settledGo (settled : Settled env s) (place : Place) (output : List Text) (pidFile : Option Who) :
    Settled env {s with place := place, output := output, pidFile := pidFile} :=
  ⟨settled.previous,settled.code,settled.unkilled,
    fun who held => by cases who <;> exact settled.port _ held,settled.opened,settled.unwritten,settled.file⟩

theorem settledPrevious (settled : Settled env s) : s.port ≠ some .previous := by
  intro held
  have harmless := settled.previous
  rw [show s.previous.stage = .listening from settled.port .previous held] at harmless
  contradiction

theorem settledPortFree (settled : Settled env s) (waiting : s.spawned.stage ≠ .listening) : s.port = none := by
  cases held : s.port with
  | none => rfl
  | some who =>
    cases who with
    | previous => exact absurd held (settledPrevious settled)
    | spawned => exact absurd (settled.port .spawned held) waiting

/- The previous server only removes the token file and ends. -/
theorem previousSettled {file : Option TokenFile} {stage : Stage} (settled : Settled env s)
    (harmless : stage.harmless = true) (removed : file = s.tokenFile ∨ file = none) :
    Settled env {s with tokenFile := file, previous := {s.previous with stage := stage}} := by
  refine ⟨harmless,settled.code,settled.unkilled,?_,?_,?_,?_⟩
  · intro who held
    cases who with
    | previous => exact absurd (show s.port = some .previous from held) (settledPrevious settled)
    | spawned => exact settled.port .spawned held
  · intro inode opened f there
    rcases removed with same | gone
    · exact settled.opened inode opened f (same.symm.trans there)
    · exact absurd (gone.symm.trans there) (by simp)
  · intro unwritten
    rcases removed with same | gone
    · rw [same]
      exact settled.unwritten unwritten
    · rw [gone]
      rfl
  · intro wrote f there
    rcases removed with same | gone
    · exact settled.file wrote f (same.symm.trans there)
    · exact absurd (gone.symm.trans there) (by simp)

/- The spawned server moves on to a stage that accounts for the token file. -/
theorem spawnedSettled {port : Option Who} {file : Option TokenFile} {stage : Stage} {next : Nat}
    (settled : Settled env s) (held : ∀ who, port = some who → who = .spawned ∧ stage = .listening)
    (opened : ∀ inode, stage = .truncated inode → ∀ f, file = some f → f.inode = inode)
    (unwritten : stage.wrote = false → file.elim [] TokenFile.content = [])
    (wrote : stage.wrote = true → ∀ f, file = some f → f.content = tokenLine (token env)) :
    Settled env {s with
      port := port, tokenFile := file, nextInode := next, spawned := {s.spawned with stage := stage}} := by
  refine ⟨settled.previous,settled.code,settled.unkilled,?_,opened,unwritten,wrote⟩
  intro who taken
  obtain ⟨rfl,listening⟩ := held who taken
  exact listening

theorem mainSpawned {fails} (settled : Settled env s) (stepped : main s .spawned fails = some t) :
    Settled env t ∧ (s.spawned.stage.wrote = true → t.spawned.stage.wrote = true) := by
  unfold main at stepped
  cases stage : s.spawned.stage with
  | absent | listening | exited => simp [State.process,stage] at stepped
  | created =>
    have free := settledPortFree settled (by simp [stage])
    have empty := settled.unwritten (by simp [stage,Stage.wrote])
    simp only [State.process,stage,Option.some.injEq] at stepped
    refine ⟨?_,by simp [Stage.wrote]⟩
    subst stepped
    split
    · simp only [exit,State.move,State.put,State.process,stage,free,Stage.bound]
      exact spawnedSettled settled (by simp) (by simp) (fun _ => empty) (by simp [Stage.wrote])
    · unfold openToken
      split
      · simp only [State.move,State.put,State.process,free]
        exact spawnedSettled settled (by simp) (by simp) (by simp) (by simp [Stage.wrote])
      · simp only [State.move,State.put,State.process,free]
        exact spawnedSettled settled (by simp) (by simp) (by simp) (by simp [Stage.wrote])
  | truncated inode =>
    have free := settledPortFree settled (by simp [stage])
    have empty := settled.unwritten (by simp [stage,Stage.wrote])
    simp only [State.process,stage,Option.some.injEq] at stepped
    refine ⟨?_,by simp [Stage.wrote]⟩
    subst stepped
    split
    · simp only [exit,State.move,State.put,State.process,stage,free,Stage.bound]
      exact spawnedSettled settled (by simp) (by simp) (fun _ => empty) (by simp [Stage.wrote])
    · simp only [writeToken,State.move,State.put,State.process,free]
      refine spawnedSettled settled (fun _ taken => ?_) (fun _ opened => ?_) (fun unwritten => ?_) (fun _ f there => ?_)
      · contradiction
      · contradiction
      · contradiction
      -- nobody else has made a file of that name, and what is there is still empty
      obtain ⟨g,before,rfl⟩ := Option.map_eq_some_iff.mp there
      have blank : g.content = [] := by simpa [content,before] using empty
      simp [settled.opened inode stage g before,blank,settled.code]
  | written =>
    have free := settledPortFree settled (by simp [stage])
    simp only [State.process,stage,Option.some.injEq,listen,free] at stepped
    subst stepped
    refine ⟨?_,fun _ => rfl⟩
    simp only [State.move,State.put,State.process]
    exact spawnedSettled settled (by simp) (by simp) (by simp [Stage.wrote])
      (fun _ => settled.file (by simp [stage,Stage.wrote]))
  | returning =>
    have free := settledPortFree settled (by simp [stage])
    simp only [State.process,stage,Option.some.injEq] at stepped
    subst stepped
    refine ⟨?_,fun _ => rfl⟩
    simp only [State.move,State.put,State.process,free]
    exact spawnedSettled settled (by simp) (by simp) (by simp) (by simp)

theorem mainPrevious {fails} (settled : Settled env s) (stepped : main s .previous fails = some t) :
    Settled env t ∧ t.spawned = s.spawned := by
  have harmless := settled.previous
  unfold main at stepped
  cases stage : s.previous.stage with
  | returning =>
    simp only [State.process,stage,Option.some.injEq] at stepped
    subst stepped
    exact ⟨previousSettled (s := s) settled rfl (.inr rfl),rfl⟩
  | absent | exited => simp [State.process,stage] at stepped
  | created | truncated | written | listening => simp [stage,Stage.harmless] at harmless

/- Whatever the two servers do, a settled start stays settled and a written token stays written. -/
theorem serverSettled {action} (settled : Settled env s) (server : ∀ fails zombie, action ≠ .script fails zombie)
    (stepped : step env s action = some t) :
    Settled env t ∧ (s.spawned.stage.wrote = true → t.spawned.stage.wrote = true) := by
  have harmless := settled.previous
  cases action with
  | script fails zombie => exact absurd rfl (server fails zombie)
  | main who fails =>
    cases who with
    | previous =>
      obtain ⟨after,same⟩ := mainPrevious settled stepped
      exact ⟨after,fun wrote => by rwa [same]⟩
    | spawned => exact mainSpawned settled stepped
  | shutdown who =>
    simp only [step,shutdownServer] at stepped
    split at stepped
    · rename_i listening
      cases Option.some.inj stepped
      cases who with
      | previous =>
        rw [show s.previous.stage = .listening from listening] at harmless
        contradiction
      | spawned =>
        refine ⟨?_,fun _ => rfl⟩
        have wrote : s.spawned.stage.wrote = true := by
          rw [show s.spawned.stage = .listening from listening]
          rfl
        exact spawnedSettled (s := s) settled (by simp) (by simp) (by simp [Stage.wrote]) (fun _ => settled.file wrote)
    · contradiction
  | die who =>
    simp only [step,die] at stepped
    split at stepped
    · rename_i dying
      cases Option.some.inj stepped
      cases who with
      | previous =>
        refine ⟨?_,id⟩
        simp only [exit,if_neg (settledPrevious settled)]
        exact previousSettled settled rfl (.inl rfl)
      | spawned => simp [State.process,settled.unkilled] at dying
    · contradiction

end Settled

/-! The script. -/

/-- Nothing listens on 8088 when the new server is started, the previous one no longer gets
there, and no code of it is on file. -/
def Vacated (s : State) : Action → Prop
  | .script _ _ => s.place = .spawn → s.port = none ∧ s.previous.stage.harmless = true ∧ content s = []
  | _ => True

def Sound (env : Env) (s : State) : Place → Prop
  | .recordPid | .poll _ | .probe _ | .confirm => Settled env s ∧ s.output = []
  | .readToken => Settled env s ∧ s.output = [] ∧ s.spawned.stage.wrote = true
  | .probeLast code | .announce code =>
    Settled env s ∧ s.output = [] ∧ s.spawned.stage.wrote = true ∧ code = token env
  | .exited 0 => Settled env s ∧ s.spawned.stage.wrote = true ∧ s.output = announcement env.lanIp (token env)
  | .exited _ => True
  | _ => s.output = []

section Script
variable {env : Env} {s t : State}

theorem serverFrame {action} (server : ∀ fails zombie, action ≠ .script fails zombie)
    (stepped : step env s action = some t) : t.place = s.place ∧ t.output = s.output := by
  have moved : ∀ (u : State) who stage, (u.move who stage).place = u.place ∧ (u.move who stage).output = u.output := by
    intro u who stage
    cases who <;> exact ⟨rfl,rfl⟩
  have ended : ∀ (u : State) who, (exit u who).place = u.place ∧ (exit u who).output = u.output :=
    fun u who => moved _ who _
  cases action with
  | script fails zombie => exact absurd rfl (server fails zombie)
  | main who fails =>
    simp only [step,main] at stepped
    split at stepped
    · cases Option.some.inj stepped
      split
      · exact ended s who
      · unfold openToken
        split <;> exact moved _ who _
    · cases Option.some.inj stepped
      split
      · exact ended s who
      · exact moved _ who _
    · cases Option.some.inj stepped
      unfold listen
      split
      · exact moved _ who _
      · exact ended s who
    · cases Option.some.inj stepped
      exact moved _ who _
    · contradiction
  | shutdown who =>
    simp only [step,shutdownServer] at stepped
    split at stepped
    · cases Option.some.inj stepped
      exact moved _ who _
    · contradiction
  | die who =>
    simp only [step,die] at stepped
    split at stepped
    · cases Option.some.inj stepped
      exact ended s who
    · contradiction

theorem serverSound {action} (server : ∀ fails zombie, action ≠ .script fails zombie) (sound : Sound env s s.place)
    (stepped : step env s action = some t) : Sound env t t.place := by
  obtain ⟨place,output⟩ := serverFrame server stepped
  have goesOn : Settled env s →
      Settled env t ∧ (s.spawned.stage.wrote = true → t.spawned.stage.wrote = true) :=
    fun settled => serverSettled settled server stepped
  rw [place]
  cases here : s.place with
  | recordPid | poll | probe | confirm =>
    rw [here] at sound
    exact ⟨(goesOn sound.1).1,output.trans sound.2⟩
  | readToken =>
    rw [here] at sound
    obtain ⟨settled,silent,wrote⟩ := sound
    exact ⟨(goesOn settled).1,output.trans silent,(goesOn settled).2 wrote⟩
  | probeLast | announce =>
    rw [here] at sound
    obtain ⟨settled,silent,wrote,same⟩ := sound
    exact ⟨(goesOn settled).1,output.trans silent,(goesOn settled).2 wrote,same⟩
  | exited rc =>
    rw [here] at sound
    cases rc with
    | zero =>
      obtain ⟨settled,wrote,printed⟩ := sound
      exact ⟨(goesOn settled).1,(goesOn settled).2 wrote,output.trans printed⟩
    | succ => trivial
  | mkdirRun | checkBin | killRecorded | killAll | removeToken | detectIp | writeUrl | spawn =>
    rw [here] at sound
    exact output.trans sound

theorem hexByteFirm (b : Fin 256) : ∀ c ∈ hexByte b, c ≠ '\n' := by
  have digits : ∀ n : Fin 16, Nat.digitChar n.val ≠ '\n' := by decide
  intro c mem
  rcases List.mem_pair.mp mem with rfl | rfl
  · exact digits ⟨b.val/16,by omega⟩
  · exact digits ⟨b.val%16,by omega⟩

theorem captureLine (plain : env.given.getLast? ≠ some '\n') : capture (tokenLine (token env)) = token env := by
  have firm : ∀ c, (token env).getLast? = some c → c ≠ '\n' := by
    intro c last
    unfold token at last
    split at last
    · obtain ⟨b,_,mem⟩ := List.mem_flatMap.mp (List.mem_of_getLast? last)
      exact hexByteFirm b c mem
    · intro same
      exact plain (last.trans (congrArg some same))
  unfold capture tokenLine
  rw [List.rdropWhile_concat_pos _ _ _ (by simp),List.rdropWhile_eq_self_iff]
  intro nonempty newline
  exact firm _ (List.getLast?_eq_some_getLast nonempty) (by simpa using newline)

theorem launchSound {fails} (vacant : s.port = none ∧ s.previous.stage.harmless = true ∧ content s = [])
    (silent : s.output = []) : Sound env (launch env s fails) (launch env s fails).place := by
  obtain ⟨free,harmless,empty⟩ := vacant
  refine ⟨⟨harmless,rfl,rfl,?_,?_,fun _ => empty,?_⟩,silent⟩
  · intro who held
    exact absurd (free.symm.trans held) (by simp)
  · intro inode opened
    cases fails <;> contradiction
  · intro wrote
    cases fails <;> contradiction

theorem filledWrote (settled : Settled env s) (full : filled s = true) : s.spawned.stage.wrote = true := by
  cases wrote : s.spawned.stage.wrote with
  | true => rfl
  | false =>
    have empty := settled.unwritten wrote
    obtain ⟨f,there,content⟩ := (Option.any_eq_true _ _).mp full
    simp [UploadStart.content,there] at empty
    simp [empty] at content

theorem orExitSound {fails} {place : Place} (fine : Sound env (go s place) place) :
    Sound env (orExit s fails place) (orExit s fails place).place := by
  unfold orExit
  split
  · trivial
  · exact fine

theorem scriptSound {fails zombie} (plain : env.given.getLast? ≠ some '\n')
    (vacated : Vacated s (.script fails zombie)) (sound : Sound env s s.place)
    (stepped : script env s fails zombie = some t) : Sound env t t.place := by
  unfold script at stepped
  cases here : s.place with
  | mkdirRun | writeUrl =>
    simp only [here] at stepped sound
    cases Option.some.inj stepped
    exact orExitSound sound
  | checkBin | detectIp =>
    simp only [here] at stepped sound
    cases Option.some.inj stepped
    split
    · first | exact sound | trivial
    · first | exact sound | trivial
  | killRecorded =>
    simp only [here] at stepped sound
    cases Option.some.inj stepped
    split
    · exact sound
    · rename_i who _
      cases who <;> exact sound
  | killAll =>
    simp only [here] at stepped sound
    cases Option.some.inj stepped
    exact sound
  | removeToken =>
    simp only [here] at stepped sound
    cases Option.some.inj stepped
    refine orExitSound ?_
    split <;> exact sound
  | spawn =>
    simp only [here] at stepped sound
    cases Option.some.inj stepped
    exact launchSound (vacated here) sound
  | recordPid =>
    simp only [here] at stepped sound
    cases Option.some.inj stepped
    refine orExitSound ?_
    split <;> exact ⟨settledGo sound.1 _ _ _,sound.2⟩
  | poll i =>
    simp only [here] at stepped sound
    cases Option.some.inj stepped
    split <;> exact ⟨settledGo sound.1 _ _ _,sound.2⟩
  | probe i =>
    simp only [here] at stepped sound
    cases Option.some.inj stepped
    split
    · exact ⟨settledGo sound.1 _ _ _,sound.2⟩
    · trivial
  | confirm =>
    simp only [here] at stepped sound
    cases Option.some.inj stepped
    split
    · rename_i full
      have wrote := filledWrote sound.1 full
      exact ⟨settledGo sound.1 _ _ _,sound.2,wrote⟩
    · trivial
  | readToken =>
    simp only [here] at stepped sound
    cases Option.some.inj stepped
    obtain ⟨settled,silent,wrote⟩ := sound
    split
    · trivial
    · rename_i f there
      refine ⟨settledGo settled _ _ _,silent,wrote,?_⟩
      rw [settled.file wrote f there]
      exact captureLine plain
  | probeLast code =>
    simp only [here] at stepped sound
    cases Option.some.inj stepped
    obtain ⟨settled,silent,wrote,same⟩ := sound
    split
    · exact ⟨settledGo settled _ _ _,silent,wrote,same⟩
    · trivial
  | announce code =>
    simp only [here] at stepped sound
    cases Option.some.inj stepped
    obtain ⟨settled,silent,wrote,same⟩ := sound
    refine ⟨settledGo settled _ _ _,wrote,?_⟩
    simp [go,say,silent,same]
  | exited rc => simp [here] at stepped

theorem stepSound {action} (plain : env.given.getLast? ≠ some '\n') (vacated : Vacated s action)
    (sound : Sound env s s.place) (stepped : step env s action = some t) : Sound env t t.place := by
  cases action with
  | script fails zombie => exact scriptSound plain vacated sound stepped
  | main | shutdown | die => exact serverSound (by simp) sound stepped

theorem soundReal (sound : Sound env s s.place) : Real s := by
  intro code announced
  obtain ⟨ended,printed⟩ := announced
  rw [ended] at sound
  obtain ⟨settled,wrote,output⟩ := sound
  have same : code = token env := by
    rw [output] at printed
    simpa [announcement] using printed
  refine ⟨fun unbound => ?_,fun who held => ?_⟩
  · simp [unbound,Stage.wrote] at wrote
  · cases who with
    | previous => exact absurd held (settledPrevious settled)
    | spawned => exact settled.code.trans same.symm

end Script

theorem vacatedAnnouncementReal {env : Env} {s t : State} {actions} (plain : env.given.getLast? ≠ some '\n')
    (initial : Initial s) (vacated : Guarded (step env) Vacated s actions) (ran : run (step env) s actions = some t) :
    Real t := by
  have start : Sound env s s.place := by
    rw [initial.place]
    exact initial.output
  exact soundReal (runInvariant (I := fun u => Sound env u u.place)
    (fun _ _ _ _ sound vacated stepped => stepSound plain vacated sound stepped) start vacated ran)

instance (s : State) (action : Action) : Decidable (Vacated s action) := by
  cases action <;> unfold Vacated <;> infer_instance

def sampleEnv : Env where
  here := "/media/developer/apps/wireguard/scripts".toList
  binExecutable := true
  lanIp := "192.168.1.50".toList
  given := []
  random i := [0x5f,0x3a,0x91,0xc0].get i

example : token sampleEnv = "5f3a91c0".toList := by decide +kernel

/- A server has been running and listens. -/
def sampleState : State where
  place := .mkdirRun
  output := []
  previous := ⟨"00c0ffee".toList,.listening,false⟩
  spawned := ⟨[],.absent,false⟩
  port := some .previous
  tokenFile := some ⟨0,"00c0ffee\n".toList⟩
  pidFile := some .previous
  nextInode := 1

theorem sampleInitial : Initial sampleState where
  place := rfl
  output := rfl
  port who := by cases who <;> decide
  spawned := rfl
  pidFile := by decide

def scripts (count : Nat) : List Action := List.replicate count (.script false false)

def afterItsEnd : List Action :=
  scripts 4 ++ .die .previous::scripts 5 ++ [.main .spawned false,.main .spawned false] ++ scripts 5 ++
    [.main .spawned false]

theorem restartedServerReal :
    ∃ t, run (step sampleEnv) sampleState afterItsEnd = some t ∧ Announced t "5f3a91c0".toList ∧
      t.port = some .spawned ∧ Real t := by
  have ran : ∃ t, run (step sampleEnv) sampleState afterItsEnd = some t ∧ Announced t "5f3a91c0".toList ∧
      t.port = some .spawned := by
    refine ⟨_,rfl,⟨?_,?_⟩,?_⟩ <;> decide +kernel
  have passed : checks (step sampleEnv) (fun s a => decide (Vacated s a)) sampleState afterItsEnd = true := by
    decide +kernel
  obtain ⟨t,ran,announced,port⟩ := ran
  exact ⟨t,ran,announced,port,vacatedAnnouncementReal (by decide) sampleInitial
    (guardedOfChecks (fun _ _ fine => of_decide_eq_true fine) passed) ran⟩

/- With a token on file and its server alive the script goes straight to the announcement. -/
theorem scriptAnnounces {env : Env} {s : State} {f : TokenFile} (here : s.place = .poll 0) (there : s.tokenFile = some f)
    (full : f.content ≠ []) (alive : killZero s false = true) :
    run (step env) s (scripts 5) = some (go (say s (announcement env.lanIp (capture f.content))) (.exited 0)) := by
  have found : filled s = true := by simp [filled,there,full]
  have polls : script env s false false = some (go s .confirm) := by simp [script,here,found]
  have confirms : script env (go s .confirm) false false = some (go s .readToken) := congrArg some (if_pos found)
  have reads : script env (go s .readToken) false false = some (go s (.probeLast (capture f.content))) := by
    simp [script,go,there]
  have probes : script env (go s (.probeLast (capture f.content))) false false =
      some (go s (.announce (capture f.content))) := congrArg some (if_pos alive)
  simp only [scripts,List.replicate,run,step,polls,confirms,reads,probes,Option.bind_some]
  rfl

/- Conversely, where the previous server still has the port when the new one is started, the
script can go on to announce a server that then fails its bind. -/
theorem heldPortReachesUnbound {env : Env} {s : State} (here : s.place = .spawn) (held : s.port = some .previous) :
    ∃ actions t code, run (step env) s actions = some t ∧ Announced t code ∧ t.spawned.stage = .exited false := by
  let recorded := {launch env s false with place := .poll 0, pidFile := some .spawned}
  have launched : run (step env) s (scripts 2) = some recorded := by
    have first : script env s false false = some (launch env s false) := by simp [script,here]
    simp only [scripts,List.replicate,run,step,first,Option.bind_some]
    rfl
  -- its token is on file before the first look of the script
  have wrote : ∃ u f, run (step env) recorded [.main .spawned false,.main .spawned false] = some u ∧
      u.place = .poll 0 ∧ u.port = s.port ∧ u.pidFile = some .spawned ∧ u.spawned.stage = .written ∧
        u.tokenFile = some f ∧ f.content = tokenLine (token env) := by
    cases file : s.tokenFile <;>
      simp [run,step,main,recorded,launch,openToken,writeToken,file,State.move,State.put,State.process]
  obtain ⟨u,f,writes,place,port,pid,stage,there,line⟩ := wrote
  have announces := @scriptAnnounces env u f place there (by simp [line,tokenLine])
    (by simp [killZero,pid,State.process,stage,Stage.alive])
  let announced := go (say u (announcement env.lanIp (capture f.content))) (.exited 0)
  have binds : run (step env) announced [.main .spawned false] = some (exit announced .spawned) := by
    simp [run,step,main,listen,announced,go,say,State.process,stage,port,held]
  refine ⟨scripts 2 ++ ([.main .spawned false,.main .spawned false] ++ (scripts 5 ++ [.main .spawned false])),
    exit announced .spawned,capture f.content,?_,⟨rfl,?_⟩,?_⟩
  · rw [runAppend,launched,Option.bind_some,runAppend,writes,Option.bind_some,runAppend,announces]
    exact binds
  · simp [exit,State.move,State.put,announced,go,say,announcement]
  · simp [exit,State.move,State.put,State.process,announced,go,say,stage,Stage.bound]

/- The killed server is still there when the new one has been announced and binds. -/
def beforeItsEnd : List Action :=
  scripts 9 ++ [.main .spawned false,.main .spawned false] ++ scripts 5 ++ [.main .spawned false]

theorem announcedServerUnbound :
    ¬ ∀ env s actions t, env.given.getLast? ≠ some '\n' → Initial s → run (step env) s actions = some t → Real t := by
  intro every
  have ran : ∃ t, run (step sampleEnv) sampleState beforeItsEnd = some t ∧ Announced t "5f3a91c0".toList ∧
      t.spawned.stage = .exited false := by
    refine ⟨_,rfl,⟨?_,?_⟩,?_⟩ <;> decide +kernel
  obtain ⟨t,ran,announced,unbound⟩ := ran
  exact (every sampleEnv sampleState _ t (by decide) sampleInitial ran _ announced).1 unbound

end WebosWireguard.UploadStart
