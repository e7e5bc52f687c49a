import WebosWireguard.AllowedLines
import WebosWireguard.RouteTexts

/-! The routes of start.sh against the allowed IPs that wg gives to the peers. The two take
the same lines apart in different orders: wg cuts the comment, deletes the blanks and then
splits at the commas, start.sh splits first and trims each piece. Routes are compared as
address and length, so two spellings of one prefix are one route. -/
namespace WebosWireguard.RouteAgreement
open TextLines StartText WgReader AllowedIps AllowedLines RouteList RouteTexts

def entryPieces (raw : Text) : List Text :=
  ((before '#' (dropThroughEquals raw)).splitOn ',').map (strip isSpace)

def commentPieces (raw : Text) : List Text :=
  ((after '#' (dropThroughEquals raw)).splitOn ',').tail.map (fun piece => strip isSpace (dropComment piece))

theorem linePiecesSplit (raw : Text) : linePieces raw = entryPieces raw ++ commentPieces raw := by
  have cut : ∀ pieces : List Text, pieces.map (fun piece => strip isSpace (dropComment piece)) =
      (pieces.map (before '#')).map (strip isSpace) := by
    intro pieces
    rw [List.map_map]
    exact List.map_congr_left (fun piece _ => stripDropComment piece)
  unfold linePieces entryPieces commentPieces
  rw [cut,cut,splitOnBefore (by decide),List.map_append]

section Meaning
variable (inet : Inet)

def replaced (d : Nat × Nat) : List (Nat × Nat) := if d = (0,0) then [(0,1),(2^31,1)] else [d]

def destination (e : AllowedIp) : Option (Nat × Nat) :=
  match e.ip,e.removeMe with
  | .v4 a,false => some (a,e.cidr)
  | _,_ => none

def tunnelled (entries : List AllowedIp) : List (Nat × Nat) := (entries.filterMap destination).flatMap replaced

def lineEntries (raw : Text) : List AllowedIp :=
  ((allowedValue (cleaned raw)).bind (parseAllowedips inet)).elim [] Prod.fst

def withAllowedips {V : Values} (vp : Parsers V) : Parsers {V with AllowedIp := AllowedIp} where
  port := vp.port
  fwmark := vp.fwmark
  key := vp.key
  endpoint := vp.endpoint
  keepalive := vp.keepalive
  allowedips := parseAllowedips inet

def SameRoutes (grepQx : Text → List Text → Bool) (conf : Text) (entries : List AllowedIp) : Prop :=
  ∀ x, x ∈ (appliedRoutes grepQx conf none).map (denoted inet) ↔ x ∈ (tunnelled entries).map some

/-- Lists that both readers take apart alike: behind the commas of a comment stand only
blanks or texts with a colon; IPv4 entries are written without blanks and signs, and a zero
default route as 0.0.0.0/0; what stands in a line whose key has blanks inside also stands in
one whose key has none. -/
structure PlainLists (conf : Text) : Prop where
  comments : ∀ raw ∈ lines conf, allowedIpsLine raw = true → ∀ piece ∈ commentPieces raw,
    piece = [] ∨ ':' ∈ piece
  spelled : ∀ raw ∈ lines conf, allowedIpsLine raw = true → ∀ piece ∈ entryPieces raw,
    ':' ∉ piece → Plain piece ∧ (denoted inet piece = some (0,0) → piece = defaultRoute)
  keyed : ∀ raw ∈ lines conf, allowedIpsLine raw = false → ∀ x ∈ tunnelled (lineEntries inet raw),
    ∃ other ∈ lines conf, allowedIpsLine other = true ∧ x ∈ tunnelled (lineEntries inet other)

end Meaning

def CommentsIgnored (grepQx : Text → List Text → Bool) (conf : Text) : Prop :=
  ∀ raw ∈ lines conf, allowedIpsLine raw = true → ∀ piece ∈ commentPieces raw, addRoute grepQx [] piece = []

theorem tunnelledMem {x : Nat × Nat} {entries : List AllowedIp} :
    x ∈ tunnelled entries ↔ ∃ e ∈ entries, x ∈ tunnelled [e] := by
  simp only [tunnelled,List.mem_flatMap,List.mem_filterMap]
  constructor
  · intro given
    obtain ⟨d,⟨e,mem,dest⟩,inside⟩ := given
    exact ⟨e,mem,d,⟨e,List.mem_cons_self,dest⟩,inside⟩
  · intro given
    obtain ⟨e,mem,d,⟨f,only,dest⟩,inside⟩ := given
    cases List.mem_singleton.mp only
    exact ⟨d,⟨e,mem,dest⟩,inside⟩

theorem replacedNonzero {x d : Nat × Nat} (mem : x ∈ replaced d) : x ≠ (0,0) := by
  unfold replaced at mem
  split at mem
  · rcases List.mem_pair.mp mem with rfl | rfl <;> decide
  · cases List.mem_singleton.mp mem
    assumption

theorem tunnelledNonzero {x : Nat × Nat} {entries : List AllowedIp} (mem : x ∈ tunnelled entries) :
    x ≠ (0,0) := by
  obtain ⟨d,_,inside⟩ := List.mem_flatMap.mp mem
  exact replacedNonzero inside

theorem expandedSelf {piece : Text} (filled : piece ≠ []) (unmarked : '#' ∉ piece) (plain : ':' ∉ piece)
    (other : piece ≠ defaultRoute) : expanded piece = [piece] := by
  have keep : ¬ (piece = [] ∨ piece.head? = some '#' ∨ ':' ∈ piece) := by
    intro given
    rcases given with empty | mark | colon
    · exact filled empty
    · exact unmarked (List.mem_of_mem_head? mark)
    · exact plain colon
  rw [expanded,if_neg keep,if_neg other]

theorem pieceFilled {inet : Inet} (documented : inet.Documented) {piece : Text} {e : AllowedIp}
    (read : parseEntry inet (squash isSpace piece) = some e) : piece ≠ [] := by
  intro same
  subst same
  exact entryFilled documented read rfl

theorem pieceExpanded {inet : Inet} (documented : inet.Documented) {piece : Text} {e : AllowedIp}
    (read : parseEntry inet (squash isSpace piece) = some e) (unmarked : '#' ∉ piece)
    (spelled : ':' ∉ piece → Plain piece ∧ (denoted inet piece = some (0,0) → piece = defaultRoute)) :
    (expanded piece).map (denoted inet) = (tunnelled [e]).map some := by
  have colon := entryColon documented read
  rw [colonSeen] at colon
  cases family : e.ip with
  | v6 a =>
    have skip : piece = [] ∨ piece.head? = some '#' ∨ ':' ∈ piece := .inr (.inr (colon.mpr ⟨a,family⟩))
    simp [expanded,skip,tunnelled,destination,family]
  | v4 a =>
    have plain : ':' ∉ piece := fun mem => by simpa [family] using colon.mp mem
    obtain ⟨solid,default_⟩ := spelled plain
    obtain ⟨kept,body⟩ := plainEntry solid read
    rw [family] at body
    have meaning : denoted inet piece = some (a,e.cidr) := denotedSome.mpr body
    have target : tunnelled [e] = replaced (a,e.cidr) := by simp [tunnelled,destination,family,kept]
    rw [target,replaced]
    by_cases zero : (a,e.cidr) = (0,0)
    · rw [zero] at meaning
      rw [default_ meaning,if_pos zero]
      exact halvesDenoted documented
    · have other : piece ≠ defaultRoute := by
        intro same
        subst same
        rw [defaultDenoted documented] at meaning
        exact zero (Option.some.inj meaning).symm
      rw [expandedSelf (pieceFilled documented read) unmarked plain other,if_neg zero]
      simp [meaning]

theorem pieceMeans {inet : Inet} (documented : inet.Documented) {piece : Text} {e : AllowedIp}
    (read : parseEntry inet (squash isSpace piece) = some e) (unmarked : '#' ∉ piece)
    (spelled : ':' ∉ piece → Plain piece ∧ (denoted inet piece = some (0,0) → piece = defaultRoute)) :
    (∀ r ∈ expanded piece, ∃ x ∈ tunnelled [e], denoted inet r = some x) ∧
      ∀ x ∈ tunnelled [e], ∃ r ∈ expanded piece, denoted inet r = some x := by
  have same := pieceExpanded documented read unmarked spelled
  constructor
  · intro r mem
    obtain ⟨x,inside,image⟩ := List.mem_map.mp (same ▸ List.mem_map_of_mem mem)
    exact ⟨x,inside,image.symm⟩
  · intro x mem
    exact List.mem_map.mp (same.symm ▸ List.mem_map_of_mem mem)

def Listed (conf piece : Text) : Prop :=
  ∃ raw ∈ lines conf, allowedIpsLine raw = true ∧ piece ∈ entryPieces raw

theorem listedClear {conf piece : Text} (listed : Listed conf piece) :
    '#' ∉ piece ∧ '\n' ∉ piece ∧ ∀ c rest, piece = c::rest → isSpace c = false := by
  obtain ⟨raw,mem,_,inside⟩ := listed
  obtain ⟨part,split,rfl⟩ := List.mem_map.mp inside
  have origin : ∀ c ∈ strip isSpace part, c ∈ before '#' (dropThroughEquals raw) :=
    fun c here => splitOnSubset split (stripSubset here)
  have value : ∀ c ∈ dropThroughEquals raw, c ∈ raw := by
    intro c here
    unfold dropThroughEquals at here
    split at here
    · exact afterSubset here
    · exact here
  refine ⟨fun mark => beforeNotMem _ (origin '#' mark),fun ended => ?_,fun c rest => stripHeadSolid⟩
  exact linesNoBreak mem (value _ (beforeSubset (origin _ ended)))

section Agreement
variable {V : Values} {vp : Parsers V} {inet : Inet} {grepQx : Text → List Text → Bool} {conf : Text}
  {device : Device {V with AllowedIp := AllowedIp}}

theorem commentUnmarked {raw piece : Text} (mem : piece ∈ commentPieces raw) : '#' ∉ piece := by
  obtain ⟨part,_,rfl⟩ := List.mem_map.mp mem
  rw [stripDropComment]
  exact fun mark => beforeNotMem part (stripSubset mark)

theorem commentsIgnoredIff (grep : GrepDocumented grepQx) : CommentsIgnored grepQx conf ↔
    ∀ raw ∈ lines conf, allowedIpsLine raw = true → ∀ piece ∈ commentPieces raw,
      piece = [] ∨ ':' ∈ piece := by
  refine forall₅_congr (fun raw _ _ piece mem => ?_)
  have unmarked : piece.head? ≠ some '#' :=
    fun head => commentUnmarked mem (List.mem_of_mem_head? head)
  rw [addRouteExpanded]
  unfold expanded
  by_cases skipped : piece = [] ∨ ':' ∈ piece
  · have skip : piece = [] ∨ piece.head? = some '#' ∨ ':' ∈ piece := skipped.imp_right .inr
    simp [skip,skipped]
  · have keep : ¬ (piece = [] ∨ piece.head? = some '#' ∨ ':' ∈ piece) := by
      intro given
      rcases given with empty | mark | colon
      · exact skipped (.inl empty)
      · exact unmarked mark
      · exact skipped (.inr colon)
    rw [if_neg keep]
    refine iff_of_false ?_ skipped
    split <;> simp [recordRoute,grep.empty]
    split <;> simp

theorem routeTexts (comments : ∀ raw ∈ lines conf, allowedIpsLine raw = true →
      ∀ piece ∈ commentPieces raw, piece = [] ∨ ':' ∈ piece) (r : Text) :
    r ∈ (routePieces conf ++ extraPieces none).flatMap expanded ↔
      ∃ piece, Listed conf piece ∧ r ∈ expanded piece := by
  have extra : extraPieces none = [] := rfl
  rw [extra,List.append_nil]
  simp only [routePieces,List.mem_flatMap,List.mem_filter,linePiecesSplit,List.mem_append]
  constructor
  · rintro ⟨piece,⟨raw,⟨mem,found⟩,entry | comment⟩,inside⟩
    · exact ⟨piece,⟨raw,mem,found,entry⟩,inside⟩
    · have skip : piece = [] ∨ piece.head? = some '#' ∨ ':' ∈ piece :=
        (comments raw mem found piece comment).imp_right .inr
      rw [expanded,if_pos skip] at inside
      simp at inside
  · intro given
    obtain ⟨piece,⟨raw,mem,found,entry⟩,inside⟩ := given
    exact ⟨piece,⟨raw,⟨mem,found⟩,.inl entry⟩,inside⟩

section Accepted
variable (accepted : readConfig (withAllowedips inet vp) (makeWgSetconfFile conf) = .ok device)
include accepted

theorem grepLineEntries {raw : Text} (mem : raw ∈ lines conf) (found : allowedIpsLine raw = true) :
    (∀ piece ∈ entryPieces raw, ∃ e, parseEntry inet (squash isSpace piece) = some e) ∧
      ∀ e, e ∈ lineEntries inet raw ↔
        ∃ piece ∈ entryPieces raw, parseEntry inet (squash isSpace piece) = some e := by
  obtain ⟨⟨entries,replace⟩,read,filled,same⟩ := grepLineRead accepted mem found
  have own : lineEntries inet raw = entries := same
  have parsed : parseEntries inet ((squash isSpace (before '#' (dropThroughEquals raw))).splitOn ',') =
      some (entries,replace) := by
    have whole : parseAllowedips inet _ = some (entries,replace) := read
    rwa [parseAllowedips,if_neg filled] at whole
  rw [splitOnSquash (by decide)] at parsed
  obtain ⟨every,entryMem⟩ := parseEntriesMem parsed
  unfold entryPieces
  simp only [List.mem_map,forall_exists_index,and_imp,forall_apply_eq_imp_iff₂,exists_exists_and_eq_and,
    squashStrip] at every entryMem ⊢
  exact ⟨every,fun e => own ▸ entryMem e⟩

theorem listedEntry {piece : Text} (listed : Listed conf piece) :
    ∃ e, parseEntry inet (squash isSpace piece) = some e := by
  obtain ⟨raw,mem,found,inside⟩ := listed
  exact (grepLineEntries accepted mem found).1 piece inside

theorem assignedTunnelled (x : Nat × Nat) :
    x ∈ tunnelled (assigned device.peers) ↔ ∃ raw ∈ lines conf, x ∈ tunnelled (lineEntries inet raw) := by
  rw [tunnelledMem]
  constructor
  · intro given
    obtain ⟨e,mem,inside⟩ := given
    obtain ⟨raw,line,entry⟩ := (assignedLines accepted e).mp mem
    exact ⟨raw,line,tunnelledMem.mpr ⟨e,entry,inside⟩⟩
  · intro given
    obtain ⟨raw,line,inside⟩ := given
    obtain ⟨e,entry,inside⟩ := tunnelledMem.mp inside
    exact ⟨e,(assignedLines accepted e).mpr ⟨raw,line,entry⟩,inside⟩

theorem listedTunnelled (x : Nat × Nat) :
    (∃ raw ∈ lines conf, allowedIpsLine raw = true ∧ x ∈ tunnelled (lineEntries inet raw)) ↔
      ∃ piece e, Listed conf piece ∧ parseEntry inet (squash isSpace piece) = some e ∧ x ∈ tunnelled [e] := by
  constructor
  · intro given
    obtain ⟨raw,line,found,inside⟩ := given
    obtain ⟨e,entry,inside⟩ := tunnelledMem.mp inside
    obtain ⟨piece,mem,read⟩ := ((grepLineEntries accepted line found).2 e).mp entry
    exact ⟨piece,e,⟨raw,line,found,mem⟩,read,inside⟩
  · intro given
    obtain ⟨piece,e,⟨raw,line,found,mem⟩,read,inside⟩ := given
    have entry := ((grepLineEntries accepted line found).2 e).mpr ⟨piece,mem,read⟩
    exact ⟨raw,line,found,tunnelledMem.mpr ⟨e,entry,inside⟩⟩

theorem keyedTunnelled (plain : PlainLists inet conf) (x : Nat × Nat) :
    x ∈ tunnelled (assigned device.peers) ↔
      ∃ raw ∈ lines conf, allowedIpsLine raw = true ∧ x ∈ tunnelled (lineEntries inet raw) := by
  rw [assignedTunnelled accepted]
  constructor
  · intro given
    obtain ⟨raw,line,inside⟩ := given
    cases found : allowedIpsLine raw with
    | true => exact ⟨raw,line,found,inside⟩
    | false => exact plain.keyed raw line found x inside
  · intro given
    obtain ⟨raw,line,_,inside⟩ := given
    exact ⟨raw,line,inside⟩

theorem plainListsSameRoutes (documented : inet.Documented) (grep : GrepDocumented grepQx)
    (plain : PlainLists inet conf) : SameRoutes inet grepQx conf (assigned device.peers) := by
  have means : ∀ piece e, Listed conf piece → parseEntry inet (squash isSpace piece) = some e →
      (∀ r ∈ expanded piece, ∃ x ∈ tunnelled [e], denoted inet r = some x) ∧
        ∀ x ∈ tunnelled [e], ∃ r ∈ expanded piece, denoted inet r = some x := by
    intro piece e listed read
    have clear := (listedClear listed).1
    obtain ⟨raw,line,found,mem⟩ := listed
    exact pieceMeans documented read clear (plain.spelled raw line found piece mem)
  have denotes : ∀ r ∈ (routePieces conf ++ extraPieces none).flatMap expanded, denoted inet r ≠ none := by
    intro r mem
    obtain ⟨piece,listed,inside⟩ := (routeTexts plain.comments r).mp mem
    obtain ⟨e,read⟩ := listedEntry accepted listed
    obtain ⟨x,_,meaning⟩ := (means piece e listed read).1 r inside
    simp [meaning]
  intro x
  simp only [List.mem_map,appliedRoutesRecorded,allRecorded documented grep denotes,
    routeTexts plain.comments,keyedTunnelled accepted plain,listedTunnelled accepted]
  constructor
  · intro given
    obtain ⟨r,⟨piece,listed,inside⟩,same⟩ := given
    obtain ⟨e,read⟩ := listedEntry accepted listed
    obtain ⟨y,mem,meaning⟩ := (means piece e listed read).1 r inside
    exact ⟨y,⟨piece,e,listed,read,mem⟩,meaning.symm.trans same⟩
  · intro given
    obtain ⟨y,⟨piece,e,listed,read,mem⟩,same⟩ := given
    obtain ⟨r,inside,meaning⟩ := (means piece e listed read).2 y mem
    exact ⟨r,⟨piece,listed,inside⟩,meaning.trans same⟩

omit accepted in
theorem sameRoutesMeant (same : SameRoutes inet grepQx conf (assigned device.peers)) {q : Text}
    (mem : q ∈ appliedRoutes grepQx conf none) : denoted inet q ≠ none ∧ denoted inet q ≠ some (0,0) := by
  obtain ⟨x,inside,read⟩ := List.mem_map.mp ((same _).mp (List.mem_map_of_mem mem))
  rw [← read]
  exact ⟨by simp,fun zero => tunnelledNonzero inside (Option.some.inj zero)⟩

theorem sameRoutesSpelled (documented : inet.Documented) (grep : GrepDocumented grepQx)
    (same : SameRoutes inet grepQx conf (assigned device.peers))
    (comments : ∀ raw ∈ lines conf, allowedIpsLine raw = true → ∀ piece ∈ commentPieces raw,
      piece = [] ∨ ':' ∈ piece) {piece : Text} (listed : Listed conf piece) (plain : ':' ∉ piece) :
    Plain piece ∧ (denoted inet piece = some (0,0) → piece = defaultRoute) := by
  have meant : ∀ q ∈ ((routePieces conf ++ extraPieces none).flatMap expanded).foldl
      (recordRoute grepQx) [], denoted inet q ≠ none ∧ denoted inet q ≠ some (0,0) := by
    intro q mem
    rw [← appliedRoutesRecorded] at mem
    exact sameRoutesMeant same mem
  obtain ⟨e,read⟩ := listedEntry accepted listed
  obtain ⟨unmarked,clean,stripped⟩ := listedClear listed
  -- unless it is 0.0.0.0/0, add_route records the piece as it stands
  have given : piece ≠ defaultRoute → piece ∈ (routePieces conf ++ extraPieces none).flatMap expanded := by
    intro other
    refine (routeTexts comments piece).mpr ⟨piece,listed,?_⟩
    rw [expandedSelf (pieceFilled documented read) unmarked plain other]
    exact List.mem_cons_self
  constructor
  · by_contra odd
    have other : piece ≠ defaultRoute := by
      intro default_
      rw [default_] at odd
      exact odd (denotedOrdinary documented (defaultDenoted documented)).1
    obtain ⟨a,family⟩ : ∃ a, e.ip = .v4 a := by
      cases family : e.ip with
      | v4 a => exact ⟨a,rfl⟩
      | v6 a => exact absurd (colonSeen.mp ((entryColon documented read).mpr ⟨a,family⟩)) plain
    obtain ⟨q,mem,none⟩ := oddRecorded documented grep read family stripped clean odd (given other)
    exact (meant q mem).1 none
  · intro zero
    by_contra other
    rcases prefixRecorded documented grep zero (given other) with here | ⟨q,mem,none⟩
    · exact (meant piece here).2 zero
    · exact (meant q mem).1 none

theorem sameRoutesPlainLists (documented : inet.Documented) (grep : GrepDocumented grepQx)
    (same : SameRoutes inet grepQx conf (assigned device.peers))
    (comments : ∀ raw ∈ lines conf, allowedIpsLine raw = true → ∀ piece ∈ commentPieces raw,
      piece = [] ∨ ':' ∈ piece) : PlainLists inet conf := by
  have spelled : ∀ piece, Listed conf piece → ':' ∉ piece →
      Plain piece ∧ (denoted inet piece = some (0,0) → piece = defaultRoute) :=
    fun piece listed => sameRoutesSpelled accepted documented grep same comments listed
  refine ⟨comments,fun raw line found piece mem => spelled piece ⟨raw,line,found,mem⟩,?_⟩
  intro raw line _ x inside
  -- the route for x is there, so some line that grep finds has given it
  have wanted : some x ∈ (appliedRoutes grepQx conf none).map (denoted inet) :=
    (same _).mpr (List.mem_map_of_mem ((assignedTunnelled accepted x).mpr ⟨raw,line,inside⟩))
  obtain ⟨q,mem,read⟩ := List.mem_map.mp wanted
  rw [appliedRoutesRecorded] at mem
  obtain ⟨piece,listed,recorded⟩ :=
    (routeTexts comments q).mp ((recordedFrom mem).resolve_left (by simp))
  obtain ⟨e,entry⟩ := listedEntry accepted listed
  obtain ⟨y,target,meaning⟩ :=
    (pieceMeans documented entry (listedClear listed).1 (spelled piece listed)).1 q recorded
  cases Option.some.inj (read.symm.trans meaning)
  exact (listedTunnelled accepted x).mpr ⟨piece,e,listed,entry,target⟩

end Accepted

end Agreement

/-! One inet_pton and one grep that behave as documented, to read samples with. -/

def sampleInet : Inet where
  pton4 t := if t.count '.' = 3 ∧ ∀ c ∈ t, c = '.' ∨ c.isDigit = true then
    some ((t.splitOn '.').foldl (fun value octet => value*256 + number octet) 0) else none
  pton6 t := some t.length

theorem sampleInetDocumented : sampleInet.Documented where
  dotted t a read := by
    simp only [sampleInet] at read
    split at read
    · assumption
    · contradiction
  zero := by decide +kernel
  half := by decide +kernel

def sampleGrep (pattern : Text) (file : List Text) : Bool :=
  pattern.head? ≠ some '-' && file.any (dotMatch pattern)

theorem sampleGrepDocumented : GrepDocumented sampleGrep where
  ordinary pattern file plain := by simp [sampleGrep,plain.1]
  empty pattern := by simp [sampleGrep]
  options pattern file minus _ _ := by simp [sampleGrep,minus]

def peerConf (allowed : Text) : Text :=
  "[Peer]\nPublicKey = AAAAAAAAAAAAAAAAAAAAAAAAAAAAAAAAAAAAAAAAAAA=\nAllowedIPs = ".toList ++ allowed ++ "\n".toList

def plainList : Text := "10.0.0.0/8, 0.0.0.0/0, ::/0, 10.0.0.0/8 # everything".toList

/- The text behind the comma of the comment is routed into the tunnel. -/
def commentedList : Text := "10.0.0.0/8 # not the office, 172.16.0.0/12".toList

end WebosWireguard.RouteAgreement
