/-
  Thawr.Dns.Server — the resolver's answers (`internal/dns/server.go`, `internal/dns/forward.go`).

  `Handle` takes one message of a client and returns the reply. Messages are read and written
  by the package dnsmessage, which is a parameter (`Package`): a parser and a builder, each a
  state with operations that may fail. A name is its bytes. What the upstreams send back is a
  parameter as well.

  Names come from a `Source`, which is told who asks; `handle_congr` says that the reply depends
  on it only through what it answers that client.
-/

import Thawr.Go.Prefixes
import Thawr.Go.Runes

namespace Thawr.Dns

open Go Netip

/-! ## Messages -/

structure Header where
  id : UInt16 := 0
  response : Bool := false
  opCode : UInt16 := 0
  authoritative : Bool := false
  truncated : Bool := false
  recursionDesired : Bool := false
  recursionAvailable : Bool := false
  rcode : UInt16 := 0

structure Question where
  name : Str := []
  type : UInt16 := 0
  class_ : UInt16 := 0

structure ResourceHeader where
  name : Str
  type : UInt16
  class_ : UInt16
  ttl : UInt32 := 0

inductive Body where
  | a (a : Arr 4)
  | aaaa (aaaa : Arr 16)
  | ptr (ptr : Str)
  | soa (ns mbox : Str) (serial refresh retry expire minTTL : UInt32)

structure Resource where
  header : ResourceHeader
  body : Body

def typeA : UInt16 := 1
def typeSOA : UInt16 := 6
def typePTR : UInt16 := 12
def typeAAAA : UInt16 := 28
def typeOPT : UInt16 := 41
def typeALL : UInt16 := 255

def classINET : UInt16 := 1
def classANY : UInt16 := 255

def rcodeSuccess : UInt16 := 0
def rcodeFormatError : UInt16 := 1
def rcodeServerFailure : UInt16 := 2
def rcodeNameError : UInt16 := 3
def rcodeNotImplemented : UInt16 := 4
def rcodeRefused : UInt16 := 5

/-- The package dnsmessage, with parsers `π` and builders `β`. -/
structure Package (π β : Type) where
  start : Str → Except Str (π × Header)
  question : π → Except Str (π × Question)
  skipAllQuestions : π → Except Str π
  skipAllAnswers : π → Except Str π
  skipAllAuthorities : π → Except Str π
  additionalHeader : π → Except Str (π × ResourceHeader)
  skipAdditional : π → Except Str π
  newName : Str → Except Str Str
  /-- `Type.String`. -/
  typeString : UInt16 → Str
  newBuilder : Header → β
  enableCompression : β → β
  startQuestions : β → Except Str β
  addQuestion : β → Question → Except Str β
  startAnswers : β → Except Str β
  startAuthorities : β → Except Str β
  startAdditionals : β → Except Str β
  /-- `AResource`, `AAAAResource`, `PTRResource` and `SOAResource`. -/
  resource : β → ResourceHeader → Body → Except Str β
  /-- `OPTResource` without options. -/
  optResource : β → ResourceHeader → Except Str β
  finish : β → Except Str Str

/-! ## The server -/

def maxUDP : Nat := 512

def maxMessage : Nat := 65535

def ttl : UInt32 := 30

structure Source where
  lookup : Addr → Str → Option (List Addr)
  reverse : Addr → Addr → Option Str

/-- `Options` with the defaults filled in, and the zone as `NewServer` keeps it. -/
structure Server where
  zone : Str := str "thawr"
  upstreams : List AddrPort := []
  allow : Prefix := Prefix.none
  reverse : Prefix := Prefix.none
  reverse6 : Prefix := Prefix.none

structure Query where
  header : Header := {}
  question : Question := {}
  edns : Bool := false
  udpSize : Nat := 0

/-- What an upstream sends back until its deadline, and the error that ends the reads; or why
    it could not be asked. -/
abbrev Upstreams := AddrPort → Str → Bool → Except Str (List Str × Str)

namespace Server

variable {π β : Type} (pkg : Package π β) (s : Server)

/-- The records of the additional section; their count has 16 bits. -/
def additionals : Nat → π → Query → Query
  | 0, _, q => q
  | n + 1, p, q =>
    match pkg.additionalHeader p with
    | .error _ => q
    | .ok (p, rh) =>
      let q :=
        if rh.type = typeOPT then
          { q with edns := true, udpSize := if maxUDP < rh.class_.toNat then min rh.class_.toNat maxMessage else q.udpSize }
        else q
      match pkg.skipAdditional p with
      | .error _ => q
      | .ok p => additionals n p q

/-- `parseQuery`: what was read so far, and the error that stopped it. -/
def parseQuery (req : Str) : Query × Option Str :=
  match pkg.start req with
  | .error e => ({}, some (str "dns: parse header: " ++ e))
  | .ok (p, h) =>
    let q : Query := { header := h, udpSize := maxUDP }
    match pkg.question p with
    | .error e => (q, some (str "dns: parse question: " ++ e))
    | .ok (p, question) =>
      let q := { q with question := question }
      match pkg.skipAllQuestions p with
      | .error e => (q, some (str "dns: skip questions: " ++ e))
      | .ok p =>
        match pkg.skipAllAnswers p >>= pkg.skipAllAuthorities with
        | .error _ => (q, none)
        | .ok p => (additionals pkg 65536 p q, none)

def allowed (src : Addr) : Bool := !s.allow.isValid || (src.isValid && (src.isLoopback || s.allow.contains src))

def reverseInScope (addr : Addr) : Bool :=
  if !s.reverse.isValid && !s.reverse6.isValid then true
  else if addr.is4 then s.reverse.contains addr
  else s.reverse6.isValid && s.reverse6.contains addr

def wrap {α : Type} (text : String) (x : Except Str α) : Except Str α := x.mapError (str text ++ ·)

def buildAnswers (b : β) (answers : List Resource) : Except Str β :=
  if answers.isEmpty then .ok b
  else do
    let b ← wrap "dns: build: " (pkg.startAnswers b)
    answers.foldlM (fun b rr => wrap "dns: build answer: " (pkg.resource b rr.header rr.body)) b

def buildAuthority (b : β) (authority : List Resource) : Except Str β :=
  if authority.isEmpty then .ok b
  else do
    let b ← wrap "dns: build: " (pkg.startAuthorities b)
    authority.foldlM (fun b rr =>
      match rr.body with
      | .soa .. => wrap "dns: build authority: " (pkg.resource b rr.header rr.body)
      | _ => .error (str "dns: build authority: unsupported record type " ++ pkg.typeString rr.header.type)) b

def build (q : Query) (rcode : UInt16) (answers authority : List Resource) (truncated : Bool) : Except Str Str := do
  let h : Header :=
    { id := q.header.id
      response := true
      opCode := q.header.opCode
      authoritative := rcode == rcodeSuccess || rcode == rcodeNameError
      truncated := truncated
      recursionDesired := q.header.recursionDesired
      recursionAvailable := !s.upstreams.isEmpty
      rcode := rcode }
  let b := pkg.enableCompression (pkg.newBuilder h)
  let b ← if q.question.name.isEmpty then .ok b
    else do
      let b ← wrap "dns: build: " (pkg.startQuestions b)
      wrap "dns: build question: " (pkg.addQuestion b q.question)
  let b ← buildAnswers pkg b answers
  let b ← buildAuthority pkg b authority
  let b ← if q.edns then do
      let b ← wrap "dns: build: " (pkg.startAdditionals b)
      wrap "dns: build opt: " (pkg.optResource b ⟨str ".", typeOPT, UInt16.ofNat maxMessage, 0⟩)
    else .ok b
  wrap "dns: finish: " (pkg.finish b)

def respondWith (q : Query) (rcode : UInt16) (answers authority : List Resource) (tcp : Bool) : Except Str Str := do
  let msg ← s.build pkg q rcode answers authority false
  if !tcp && q.udpSize < msg.length then s.build pkg q rcode [] [] true else .ok msg

def respond (q : Query) (rcode : UInt16) (answers : List Resource) (tcp : Bool) : Except Str Str :=
  s.respondWith pkg q rcode answers [] tcp

def zoneSOA : Except Str Resource := do
  let apex ← pkg.newName (s.zone ++ str ".")
  let ns ← pkg.newName (str "hub." ++ s.zone ++ str ".")
  let mbox ← pkg.newName (str "hostmaster." ++ s.zone ++ str ".")
  .ok ⟨⟨apex, typeSOA, classINET, ttl⟩, .soa ns mbox 1 ttl ttl ttl ttl⟩

def respondNegative (q : Query) (rcode : UInt16) (tcp : Bool) : Except Str Str :=
  match s.zoneSOA pkg with
  | .error _ => s.respond pkg q rcode [] tcp
  | .ok soa => s.respondWith pkg q rcode [] [soa] tcp

/-- The records of the addresses a name has, as far as they are of the asked type. -/
def addressRecords (q : Question) (addrs : List Addr) : List Resource :=
  addrs.filterMap fun addr =>
    match addr with
    | .v4 b => if q.type = typeA ∨ q.type = typeALL then some ⟨⟨q.name, typeA, classINET, ttl⟩, .a b⟩ else none
    | .v6 b _ =>
      if addr.is4In6 = false ∧ (q.type = typeAAAA ∨ q.type = typeALL) then
        some ⟨⟨q.name, typeAAAA, classINET, ttl⟩, .aaaa b⟩
      else none
    | .zero => none

def answerZone (source : Source) (q : Query) (src : Addr) (name : Str) (tcp : Bool) : Except Str Str :=
  if name = s.zone then
    if q.question.type = typeSOA ∨ q.question.type = typeALL then
      match s.zoneSOA pkg with
      | .error _ => s.respond pkg q rcodeServerFailure [] tcp
      | .ok soa => s.respond pkg q rcodeSuccess [soa] tcp
    else s.respondNegative pkg q rcodeSuccess tcp
  else
    let label := trimSuffix name (46 :: s.zone)
    if label.contains 46 then s.respondNegative pkg q rcodeNameError tcp
    else
      match source.lookup src label with
      | none => s.respondNegative pkg q rcodeNameError tcp
      | some addrs =>
        let answers := addressRecords q.question addrs
        if answers.isEmpty then s.respondNegative pkg q rcodeSuccess tcp else s.respond pkg q rcodeSuccess answers tcp

def answerReverse (source : Source) (q : Query) (src addr : Addr) (tcp : Bool) : Except Str Str :=
  match source.reverse src addr with
  | none => s.respond pkg q rcodeNameError [] tcp
  | some name =>
    if q.question.type ≠ typePTR ∧ q.question.type ≠ typeALL then s.respond pkg q rcodeSuccess [] tcp
    else
      match pkg.newName (name ++ str "." ++ s.zone ++ str ".") with
      | .error _ => s.respond pkg q rcodeServerFailure [] tcp
      | .ok ptr => s.respond pkg q rcodeSuccess [⟨⟨q.question.name, typePTR, classINET, ttl⟩, .ptr ptr⟩] tcp

/-! ### Reverse names -/

def ofNibbles : List Nat → List UInt8
  | hi :: lo :: l => UInt8.ofNat (hi * 16 + lo) :: ofNibbles l
  | _ => []

def nibble : Str → Option Nat
  | [c] => hexVal c
  | _ => none

def reverseAddr6 (name : Str) : Option Addr :=
  if str ".ip6.arpa" <:+ name then do
    let parts := split (trimSuffix name (str ".ip6.arpa")) 46
    let nibbles ← parts.mapM nibble
    if nibbles.length ≠ 32 then none
    let b ← Arr.of? 16 (ofNibbles nibbles.reverse)
    return .v6 b []
  else none

def reverseAddr (name : Str) : Option Addr :=
  match reverseAddr6 name with
  | some a => some a
  | none =>
    if str ".in-addr.arpa" <:+ name then do
      let parts := split (trimSuffix name (str ".in-addr.arpa")) 46
      let numbers ← parts.mapM (parseUint 8)
      let b ← Arr.of? 4 (numbers.reverse.map UInt8.ofNat)
      return .v4 b
    else none

/-! ### Other names -/

def matchID (req resp : Str) : Except Str Str :=
  if resp.length < 12 then .error (str "dns: short reply")
  else if resp.take 2 ≠ req.take 2 then .error (str "dns: reply id mismatch")
  else .ok resp

/-- `forwardOne`: over TCP the first message counts, over UDP the first with the ID. -/
def forwardOne (sent : Except Str (List Str × Str)) (req : Str) (tcp : Bool) : Except Str Str := do
  let (replies, ended) ← sent
  if tcp then
    match replies with
    | [] => .error ended
    | resp :: _ => matchID req resp
  else
    match replies.find? fun resp => (matchID req resp).isOk with
    | none => .error ended
    | some resp => .ok resp

def forward (up : Upstreams) (req : Str) (tcp : Bool) : Option Str :=
  if req.length < 2 then none
  else s.upstreams.findSome? fun u => (forwardOne (up u req tcp) req tcp).toOption

/-! ### Handle -/

/-- `Handle`; `ok none` is a query that is dropped. -/
def handle (up : Upstreams) (source : Source) (req : Str) (src : Addr) (tcp : Bool) : Except Str (Option Str) :=
  if s.allowed src = false then .ok none
  else
    match parseQuery pkg req with
    | (q, some _) =>
      if q.header.id = 0 ∧ req.length < 12 then .ok none else (s.respond pkg q rcodeFormatError [] tcp).map some
    | (q, none) =>
      if q.header.opCode ≠ 0 ∨ q.header.response = true then (s.respond pkg q rcodeNotImplemented [] tcp).map some
      else
        let name := toLower (trimSuffix q.question.name (str "."))
        if q.question.class_ ≠ classINET ∧ q.question.class_ ≠ classANY then (s.respond pkg q rcodeRefused [] tcp).map some
        else if name = s.zone ∨ 46 :: s.zone <:+ name then (s.answerZone pkg source q src name tcp).map some
        else
          match (reverseAddr name).filter s.reverseInScope with
          | some addr => (s.answerReverse pkg source q src addr tcp).map some
          | none =>
            if s.upstreams.isEmpty then (s.respond pkg q rcodeRefused [] tcp).map some
            else
              match s.forward up req tcp with
              | none => (s.respond pkg q rcodeServerFailure [] tcp).map some
              | some resp => .ok (some resp)

/-! ### What a client can learn -/

/-- Two sources that answer a client alike, name by name and address by address. -/
structure SameFor (src : Addr) (a b : Source) : Prop where
  lookup : ∀ name, a.lookup src name = b.lookup src name
  reverse : ∀ addr, a.reverse src addr = b.reverse src addr

/-- A client gets the same replies from servers whose sources answer it alike. -/
theorem handle_congr {a b : Source} {src : Addr} (h : SameFor src a b) (up : Upstreams) (req : Str) (tcp : Bool) :
    s.handle pkg up a req src tcp = s.handle pkg up b req src tcp := by
  unfold handle
  simp only [answerZone, answerReverse, h.lookup, h.reverse]

end Server

end Thawr.Dns
