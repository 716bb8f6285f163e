import ReconOS.Tcp.Table

/-! Sockets over connections: what `socket.c` does with a slot's index. -/
namespace ReconOS.Tcp

open Net

abbrev socketMax : Nat := 16
abbrev Handle := Fin socketMax

def sockStream : Nat := 1
def sockDgram : Nat := 2
def ephemeralFirst : Nat := 49152
def ephemeralCount : Nat := 16384

/-- `struct socket`, less its queue of datagrams. -/
structure Socket where
  used : Bool
  type : Nat
  localIp : Ipv4Addr
  remoteIp : Ipv4Addr
  localPort : U16
  remotePort : U16
  bound : Bool
  listening : Bool
  connected : Bool
  conn : Option Slot

/-- A cleared socket; `conn` is what follows the clearing. -/
def Socket.zero (conn : Option Slot) : Socket :=
  ⟨false, 0, 0, 0, 0, 0, false, false, false, conn⟩

structure Stack where
  conns : Table
  socks : Handle → Socket

/-- Before the first call: `conn` of a socket never made is 0. -/
def Stack.boot : Stack := ⟨Tcp.boot, fun _ => .zero (some 0)⟩

/-- What a socket call meets outside: what a TCP call does, a number for a port, and whether the
UDP port is free. -/
structure SockEnv extends Env where
  port : U16
  udpFree : Bool

/-- What a call leaves, sends and answers. -/
structure Answer where
  stack : Stack
  sent : List (Option Slot × Outgoing)
  ok : Bool
  socket : Option Handle

def Answer.fail (st : Stack) : Answer := ⟨st, [], false, none⟩

def Stack.setSock (st : Stack) (k : Handle) (s : Socket) : Stack :=
  { st with socks := Function.update st.socks k s }

def ephemeralPort (env : SockEnv) : U16 :=
  BitVec.ofNat 16 (ephemeralFirst + env.port.toNat % ephemeralCount)

def socketCreate (st : Stack) (type : Nat) : Answer :=
  if type ≠ sockStream ∧ type ≠ sockDgram then .fail st
  else
    match (List.finRange socketMax).find? fun k => !(st.socks k).used with
    | none => .fail st
    | some k =>
      ⟨st.setSock k { Socket.zero none with used := true, type := type }, [], true, some k⟩

def socketBind (env : SockEnv) (st : Stack) (k : Handle) (addr : Ipv4Addr) (port : U16) : Answer :=
  let s := st.socks k
  if s.bound then .fail st
  else
    let port := if port = 0 then ephemeralPort env else port
    if s.type = sockDgram ∧ !env.udpFree then .fail st
    else ⟨st.setSock k { s with localIp := addr, localPort := port, bound := true }, [], true, none⟩

def socketListen (env : SockEnv) (st : Stack) (k : Handle) : Answer :=
  let s := st.socks k
  if s.type ≠ sockStream ∨ !s.bound then .fail st
  else
    let e := tcpOpenListener env.toEnv st.conns s.localIp s.localPort
    match e.slot with
    | none => ⟨(Stack.mk e.table st.socks).setSock k { s with conn := none }, e.sent, false, none⟩
    | some i =>
      ⟨(Stack.mk e.table st.socks).setSock k { s with conn := some i, listening := true }, e.sent, true, none⟩

/-- The frames waiting when it is called are segments that came before it. -/
def socketAccept (env : SockEnv) (st : Stack) (k : Handle) : Answer :=
  let s := st.socks k
  if !s.listening then .fail st
  else
    let e := tcpAcceptReady st.conns s.conn
    match e.slot with
    | none => .fail ⟨e.table, st.socks⟩
    | some i =>
      let made := socketCreate ⟨e.table, st.socks⟩ sockStream
      match made.socket with
      | none =>
        let shut := tcpShutdown env.toEnv e.table (some i)
        ⟨⟨shut.table, st.socks⟩, shut.sent, false, none⟩
      | some n =>
        ⟨made.stack.setSock n { made.stack.socks n with
          conn := some i, connected := true, bound := true, localPort := s.localPort },
          [], true, some n⟩

def socketConnect (env : SockEnv) (st : Stack) (k : Handle) (addr : Ipv4Addr) (port : U16) :
    Answer :=
  let bound : Answer :=
    if (st.socks k).bound then ⟨st, [], true, none⟩ else socketBind env st k 0 0
  if !bound.ok then .fail bound.stack
  else
    let s := { bound.stack.socks k with remoteIp := addr, remotePort := port }
    if s.type = sockStream then
      let e := tcpOpen env.toEnv st.conns s.localIp s.localPort addr port
      match e.slot with
      | none =>
        ⟨(Stack.mk e.table bound.stack.socks).setSock k { s with conn := none }, e.sent, false, none⟩
      | some i =>
        ⟨(Stack.mk e.table bound.stack.socks).setSock k { s with conn := some i, connected := true },
          e.sent, true, none⟩
    else ⟨bound.stack.setSock k { s with connected := true }, [], true, none⟩

def socketClose (env : SockEnv) (st : Stack) (k : Handle) : Answer :=
  let s := st.socks k
  if !s.used then .fail st
  else
    let e : Effect :=
      if s.type = sockStream ∧ s.conn ≠ none then tcpShutdown env.toEnv st.conns s.conn
      else .idle st.conns
    ⟨(Stack.mk e.table st.socks).setSock k (.zero none), e.sent, true, none⟩

/-! ## Runs -/

inductive SockCall where
  | create (type : Nat)
  | bind (k : Handle) (addr : Ipv4Addr) (port : U16)
  | listen (k : Handle)
  | accept (k : Handle)
  | connect (k : Handle) (addr : Ipv4Addr) (port : U16)
  | send (k : Handle) (data : List U8)
  | recv (k : Handle) (len : Nat)
  | close (k : Handle)
  | receive (p : Packet)
  | tick

/-- A stream socket's send and receive are a write and a read of its slot. -/
def Stack.step (env : SockEnv) (st : Stack) : SockCall → Stack
  | .create type => (socketCreate st type).stack
  | .bind k addr port => (socketBind env st k addr port).stack
  | .listen k => (socketListen env st k).stack
  | .accept k => (socketAccept env st k).stack
  | .connect k addr port => (socketConnect env st k addr port).stack
  | .send k data =>
    if (st.socks k).connected ∧ (st.socks k).type ≠ sockDgram then
      { st with conns := (tcpWrite env.toEnv st.conns (st.socks k).conn data).table }
    else st
  | .recv k len =>
    if (st.socks k).type = sockStream then
      { st with conns := (tcpRead st.conns (st.socks k).conn len).table }
    else st
  | .close k => (socketClose env st k).stack
  | .receive p => { st with conns := (tcpReceive env.toEnv st.conns p).table }
  | .tick => { st with conns := (tcpTick env.toEnv st.conns).table }

def Stack.play (st : Stack) : List (SockEnv × SockCall) → Stack
  | [] => st
  | (env, call) :: rest => (st.step env call).play rest

end ReconOS.Tcp
