import Ndp.Scheduling

/-! The chat of `client_poc` and `server_poc`: the sides type in turn, a word that starts with a star
gives the turn away, one that starts with a hash is meant to end the connection. Each `recv`
brings one whole message; a step is what one side does up to its next call. The server is read
without its second declaration of `size`, and the model begins with the connection made. -/
namespace Ndp.Chat

/-- A word as `cin` reads it; the loops look at its first character only. -/
structure Word where
  first : Char
  rest : String
deriving DecidableEq, Repr

/-- `*buffer = '*'`. -/
def Word.starred (w : Word) : Word := { w with first := '*' }

/-- The word and the NUL behind it are within `char buffer[1024]`; `cin >> buffer` writes them all. -/
def Word.Fits (w : Word) : Prop := w.rest.length + 1 < 1024

instance (w : Word) : Decidable w.Fits := inferInstanceAs (Decidable (_ < _))

inductive Side where
  | client
  | server
deriving DecidableEq, Repr

/-- The call a side comes to next: the server's greeting; the first `recv` of the client and the first
receiving loop of the server; the word to be typed; the second `send` of a hash; the receiving
loop behind the typing loop. Nothing is said of a side that has written past its buffer. -/
inductive Place where
  | greeting
  | opening
  | typing
  | repeating
  | receiving
  | closed
  | overrun
deriving DecidableEq, Repr

/-- One program, the words its user has not typed yet, and the messages on their way to it. -/
structure Party where
  place : Place
  buffer : Word
  exitFunc : Bool
  words : List Word
  inbox : List Word
deriving DecidableEq, Repr

namespace Party

/-- `recv`, where it does not block. From a partner that has closed nothing more comes, and the
buffer keeps what it held. -/
def recv (gone : Bool) (p : Party) : Option Party :=
  match p.inbox with
  | message :: inbox => some { p with buffer := message, inbox := inbox }
  | [] => if gone then some p else none

/-- `send` of the partner. -/
def sent (p : Party) (messages : List Word) : Party := { p with inbox := p.inbox ++ messages }

/-- The typing loop up to its first `send`, the same in both programs. -/
def types (p : Party) : Party × List Word :=
  match p.words with
  | [] => (p, [])
  | w :: words =>
    if w.Fits then
      let next : Place := if w.first = '#' then .repeating else if w.first = '*' then .receiving else .typing
      ({ p with place := next, buffer := w, words := words }, [w])
    else ({ p with place := .overrun, words := words }, [])

/-- The rest of the typing loop's body for a hash, which ends the loop. -/
def repeats (p : Party) : Party × List Word :=
  ({ p with place := .receiving, buffer := p.buffer.starred, exitFunc := true }, [p.buffer])

/-- A hash received: it is turned into a star. -/
def endOnHash (p : Party) : Party :=
  if p.buffer.first = '#' then { p with buffer := p.buffer.starred, exitFunc := true } else p

/-- A hash received in the server's second loop: `*buffer == '*'` compares and assigns nothing. -/
def noteHash (p : Party) : Party :=
  if p.buffer.first = '#' then { p with exitFunc := true } else p

/-- `while (*buffer != '*')`. -/
def leaveTo (next : Place) (p : Party) : Party :=
  if p.buffer.first = '*' then { p with place := next } else p

/-- `while (!exit_func)`. -/
def again (p : Party) : Place := if p.exitFunc then .closed else .typing

def client (gone : Bool) (p : Party) : Party × List Word :=
  match p.place with
  | .opening => (((p.recv gone).map fun q => { q with place := .typing }).getD p, [])
  | .typing => p.types
  | .repeating => p.repeats
  | .receiving => (((p.recv gone).map fun q => q.endOnHash.leaveTo q.endOnHash.again).getD p, [])
  | .greeting | .closed | .overrun => (p, [])

def greeting : Word := ⟨'S', "erver connected...\n"⟩

def server (gone : Bool) (p : Party) : Party × List Word :=
  match p.place with
  | .greeting => ({ p with place := .opening, buffer := greeting }, [greeting])
  | .opening => (((p.recv gone).map fun q => q.endOnHash.leaveTo .typing).getD p, [])
  | .typing => p.types
  | .repeating => p.repeats
  | .receiving => (((p.recv gone).map fun q => q.noteHash.leaveTo q.noteHash.again).getD p, [])
  | .closed | .overrun => (p, [])

end Party

/-- Both programs, connected. -/
structure State where
  client : Party
  server : Party
deriving DecidableEq, Repr

def step (s : State) : Side → State
  | .client =>
    let moved := s.client.client (s.server.place = .closed)
    ⟨moved.1, s.server.sent moved.2⟩
  | .server =>
    let moved := s.server.server (s.client.place = .closed)
    ⟨s.client.sent moved.2, moved.1⟩

/-- What a receiving loop of the server prints in its next step. -/
def shown (s : State) : Option Word :=
  if s.server.place = .opening ∨ s.server.place = .receiving then
    (s.server.recv (s.client.place = .closed)).map Party.buffer
  else none

/-- The connection has been accepted; the buffers hold what they held. -/
def start (clientBuffer serverBuffer : Word) (clientWords serverWords : List Word) : State :=
  ⟨⟨.opening, clientBuffer, false, clientWords, []⟩, ⟨.greeting, serverBuffer, false, serverWords, []⟩⟩

/-- The chat after the given turns of its sides. -/
def session (clientBuffer serverBuffer : Word) (clientWords serverWords : List Word) (schedule : List Side) : State :=
  Tracing.after step (start clientBuffer serverBuffer clientWords serverWords) schedule

/-- What comes of a turn: the user types no more, types a word too long for the buffer, or ends the turn
with words left for later ones. -/
inductive Turn where
  | waits
  | overruns
  | ends (last : Word) (rest : List Word)
deriving DecidableEq, Repr

def turn : List Word → Turn
  | [] => .waits
  | w :: words =>
    if ¬w.Fits then .overruns
    else if w.first = '*' ∨ w.first = '#' then .ends w words
    else turn words

/-- How a conversation ends: both programs close; the client closes and the server goes round its
receiving loop for ever; both wait for a message of the other; a user types no more; a user's
word goes past the end of the buffer. -/
inductive Course where
  | closes
  | spins
  | stuck
  | waits (side : Side)
  | overruns (side : Side)
deriving DecidableEq, Repr

/-- The course once the server has read a hash in its first loop. -/
def spun (serverWords : List Word) : Course :=
  match turn serverWords with
  | .waits => .waits .server
  | .overruns => .overruns .server
  | .ends _ _ => .spins

/-- The course of a conversation in which it is the client's turn, its first one or a later one. -/
def course (first : Bool) : List Word → List Word → Course
  | [], _ => .waits .client
  | w :: clientWords, serverWords =>
    if ¬w.Fits then .overruns .client
    else if w.first = '#' then if first then spun serverWords else .stuck
    else if w.first = '*' then
      match turn serverWords with
      | .waits => .waits .server
      | .overruns => .overruns .server
      | .ends last rest => if last.first = '#' then .closes else course false clientWords rest
    else course first clientWords serverWords

/-- The course once the client has given the turn away. -/
def served (clientWords serverWords : List Word) : Course :=
  match turn serverWords with
  | .waits => .waits .server
  | .overruns => .overruns .server
  | .ends last rest => if last.first = '#' then .closes else course false clientWords rest

section Words

variable {w : Word} {clientWords serverWords : List Word} {first : Bool}

theorem course_long (long : ¬w.Fits) : course first (w :: clientWords) serverWords = .overruns .client := by
  simp only [course,long,not_false_eq_true,↓reduceIte]

theorem course_hash (fits : w.Fits) (hash : w.first = '#') :
    course first (w :: clientWords) serverWords = if first then spun serverWords else .stuck := by
  simp only [course,fits,hash,not_true_eq_false,↓reduceIte]

theorem course_star (fits : w.Fits) (star : w.first = '*') :
    course first (w :: clientWords) serverWords = served clientWords serverWords := by
  simp only [course,fits,star,not_true_eq_false,↓reduceIte,Char.reduceEq]
  rfl

/-- Neither a star nor a hash. -/
def Word.Plain (w : Word) : Prop := w.first ≠ '*' ∧ w.first ≠ '#'

theorem course_plain (fits : w.Fits) (plain : w.Plain) :
    course first (w :: clientWords) serverWords = course first clientWords serverWords := by
  simp only [course,fits,not_true_eq_false,↓reduceIte,if_neg plain.1,if_neg plain.2]

theorem turn_long (long : ¬w.Fits) : turn (w :: serverWords) = .overruns := by
  simp only [turn,long,not_false_eq_true,↓reduceIte]

theorem turn_plain (fits : w.Fits) (plain : w.Plain) : turn (w :: serverWords) = turn serverWords := by
  simp only [turn,fits,not_true_eq_false,↓reduceIte,if_neg (not_or.mpr plain)]

theorem turn_ends (fits : w.Fits) (ends : w.first = '*' ∨ w.first = '#') :
    turn (w :: serverWords) = .ends w serverWords := by
  simp only [turn,fits,ends,not_true_eq_false,↓reduceIte]

theorem Word.cases (w : Word) :
    ¬w.Fits ∨ w.Fits ∧ w.Plain ∨ w.Fits ∧ w.first = '*' ∨ w.Fits ∧ w.first = '#' := by
  simp only [Word.Plain]
  tauto

end Words

def Place.weight : Place → Nat
  | .closed | .overrun => 0
  | .opening | .typing | .receiving => 1
  | .greeting | .repeating => 3

/-- The calls a side has before it, counted so that a call that sends or receives lowers the whole. -/
def Party.work (p : Party) : Nat := 4 * p.words.length + p.inbox.length + p.place.weight

def State.work (s : State) : Nat := s.client.work + s.server.work

/-- Where the server is while the client has its first or a later turn. -/
def listening (first : Bool) : Place := if first then .opening else .receiving

namespace Party

variable {m w b : Word} {e gone first : Bool} {words inbox : List Word}

theorem typed_less (next : Place) :
    Party.work ⟨next,w,e,words,inbox⟩ + [w].length < Party.work ⟨.typing,b,e,w :: words,inbox⟩ := by
  cases next <;> simp [work,Place.weight] <;> omega

theorem overrun_less : Party.work ⟨.overrun,b,e,words,inbox⟩ < Party.work ⟨.typing,b,e,w :: words,inbox⟩ := by
  simp only [work,Place.weight,List.length_cons]
  omega

theorem read_less {place next : Place} {d : Word} {f : Bool} (lighter : next.weight ≤ place.weight) :
    Party.work ⟨next,d,f,words,inbox⟩ < Party.work ⟨place,b,e,words,m :: inbox⟩ := by
  simp only [work,List.length_cons]
  omega

@[simp] theorem leaveTo_inbox (next : Place) (p : Party) : (p.leaveTo next).inbox = p.inbox := by
  unfold leaveTo
  split <;> rfl

@[simp] theorem endOnHash_inbox (p : Party) : p.endOnHash.inbox = p.inbox := by
  unfold endOnHash
  split <;> rfl

@[simp] theorem noteHash_inbox (p : Party) : p.noteHash.inbox = p.inbox := by
  unfold noteHash
  split <;> rfl

theorem types_long (long : ¬w.Fits) :
    types ⟨.typing,b,e,w :: words,inbox⟩ = (⟨.overrun,b,e,words,inbox⟩,[]) := by
  simp [types,long]

theorem types_plain (fits : w.Fits) (plain : w.Plain) :
    types ⟨.typing,b,e,w :: words,inbox⟩ = (⟨.typing,w,e,words,inbox⟩,[w]) := by
  simp [types,fits,plain.1,plain.2]

theorem types_star (fits : w.Fits) (star : w.first = '*') :
    types ⟨.typing,b,e,w :: words,inbox⟩ = (⟨.receiving,w,e,words,inbox⟩,[w]) := by
  simp [types,fits,star]

theorem types_hash (fits : w.Fits) (hash : w.first = '#') :
    types ⟨.typing,b,e,w :: words,inbox⟩ = (⟨.repeating,w,e,words,inbox⟩,[w]) := by
  simp [types,fits,hash]

theorem client_plain (plain : m.Plain) :
    client gone ⟨.receiving,b,e,words,m :: inbox⟩ = (⟨.receiving,m,e,words,inbox⟩,[]) := by
  simp [client,recv,endOnHash,leaveTo,plain.1,plain.2]

theorem client_star (star : m.first = '*') :
    client gone ⟨.receiving,b,e,words,m :: inbox⟩ = (⟨if e then .closed else .typing,m,e,words,inbox⟩,[]) := by
  simp [client,recv,endOnHash,leaveTo,again,star]

theorem client_hash (hash : m.first = '#') :
    client gone ⟨.receiving,b,e,words,m :: inbox⟩ = (⟨.closed,m.starred,true,words,inbox⟩,[]) := by
  simp [client,recv,endOnHash,leaveTo,again,hash,Word.starred]

theorem server_plain (plain : m.Plain) :
    server gone ⟨listening first,b,e,words,m :: inbox⟩ = (⟨listening first,m,e,words,inbox⟩,[]) := by
  cases first <;> simp [listening,server,recv,endOnHash,noteHash,leaveTo,plain.1,plain.2]

theorem server_star (star : m.first = '*') :
    server gone ⟨listening first,b,false,words,m :: inbox⟩ = (⟨.typing,m,false,words,inbox⟩,[]) := by
  cases first <;> simp [listening,server,recv,endOnHash,noteHash,leaveTo,again,star]

theorem server_opening_hash (hash : m.first = '#') :
    server gone ⟨.opening,b,e,words,m :: inbox⟩ = (⟨.typing,m.starred,true,words,inbox⟩,[]) := by
  simp [server,recv,endOnHash,leaveTo,hash,Word.starred]

/-- What follows from the comparison in place of the assignment: the server stays in its loop. -/
theorem server_receiving_hash (hash : m.first = '#') :
    server gone ⟨.receiving,b,e,words,m :: inbox⟩ = (⟨.receiving,m,true,words,inbox⟩,[]) := by
  simp [server,recv,noteHash,leaveTo,hash]

theorem server_leaves (star : b.first = '*') (closed : gone = true) :
    server gone ⟨.receiving,b,true,words,[]⟩ = (⟨.closed,b,true,words,[]⟩,[]) := by
  simp [server,recv,noteHash,leaveTo,again,star,closed]

end Party

def Plain (messages : List Word) : Prop := ∀ m ∈ messages, m.Plain

/-- A client that has typed a hash, and the second copy of it that is on its way. -/
inductive Pledged : Party → List Word → Prop where
  | repeating : b.first = '#' → Pledged ⟨.repeating,b,false,words,inbox⟩ []
  | receiving : m.first = '#' → Pledged ⟨.receiving,b,true,words,inbox⟩ [m]

/-- A client that closes once it has read what was sent to it. -/
inductive Told : Party → Prop where
  | closed : p.place = .closed → Told p
  | receiving : Plain sent → (last.first = '#' ∨ last.first = '*' ∧ e = true) →
      Told ⟨.receiving,b,e,words,sent ++ last :: rest⟩

/-- A server that has ended its turn after it has read a hash. -/
inductive Answered : Party → Prop where
  | repeating : b.first = '#' → Answered ⟨.repeating,b,true,words,inbox⟩
  | receiving : Answered ⟨.receiving,b,true,words,inbox⟩

/-- The states in which a conversation can be, with the course it takes from there. A hash of the
client's later turns goes unnoticed in the server's loop; of one in its first turn the second
copy meets the later loop. -/
inductive Stage : State → Course → Prop where
  | greets : Stage ⟨⟨.opening,b,false,cw,[]⟩,⟨.greeting,d,false,sw,[]⟩⟩ (course true cw sw)
  | greeted : Stage ⟨⟨.opening,b,false,cw,[m]⟩,⟨.opening,d,false,sw,[]⟩⟩ (course true cw sw)
  | clientTypes : Plain sent →
      Stage ⟨⟨.typing,b,false,cw,[]⟩,⟨listening first,d,false,sw,sent⟩⟩ (course first cw sw)
  | clientYields : Plain sent → last.first = '*' →
      Stage ⟨⟨.receiving,b,false,cw,[]⟩,⟨listening first,d,false,sw,sent ++ [last]⟩⟩ (served cw sw)
  | serverTypes : Plain sent →
      Stage ⟨⟨.receiving,b,false,cw,sent⟩,⟨.typing,d,false,sw,[]⟩⟩ (served cw sw)
  | serverYields : Plain sent → last.first = '*' →
      Stage ⟨⟨.receiving,b,false,cw,sent ++ [last]⟩,⟨.receiving,d,false,sw,[]⟩⟩ (course false cw sw)
  | serverHashes : Told client → d.first = '#' → Stage ⟨client,⟨.repeating,d,false,sw,[]⟩⟩ .closes
  | serverLeaves : Told client → d.first = '*' → Stage ⟨client,⟨.receiving,d,true,sw,[]⟩⟩ .closes
  | closed : client.place = .closed → server.place = .closed → Stage ⟨client,server⟩ .closes
  | stuck : Pledged client more → client.inbox = [] → (∀ m ∈ sent, m.first ≠ '*') →
      (e = true ∨ ∃ m ∈ sent, m.first = '#') → Stage ⟨client,⟨.receiving,d,e,sw,sent⟩⟩ .stuck
  | clientHashes : Pledged client more → client.inbox = [] → Plain sent → last.first = '#' →
      Stage ⟨client,⟨.opening,d,false,sw,sent ++ last :: more⟩⟩ (spun sw)
  | serverAnswers : Pledged client more → Plain client.inbox →
      Stage ⟨client,⟨.typing,d,true,sw,more⟩⟩ (spun sw)
  | answered : Pledged client more → client.inbox = sent ++ last :: rest → Plain sent →
      (last.first = '#' ∨ last.first = '*') → Answered server → server.inbox = more → Stage ⟨client,server⟩ .spins
  | leaves : client.place = .closed → Answered server → server.inbox = [m] → m.first = '#' →
      Stage ⟨client,server⟩ .spins
  | spins : Told client → d.first = '#' → Stage ⟨client,⟨.receiving,d,true,sw,[]⟩⟩ .spins
  | clientOverruns : client.place = .overrun → Plain sent →
      Stage ⟨client,⟨listening first,d,false,sw,sent⟩⟩ (.overruns .client)
  | serverOverruns : Plain sent → server.place = .overrun →
      Stage ⟨⟨.receiving,b,false,cw,sent⟩,server⟩ (.overruns .server)
  | answerOverruns : Pledged client more → Plain client.inbox → server.place = .overrun →
      Stage ⟨client,server⟩ (.overruns .server)

/-- A turn finds nothing to do, or the conversation goes on and less of it is left. -/
def Advances (c : Course) (s : State) (side : Side) : Prop :=
  step s side = s ∨ Stage (step s side) c ∧ (step s side).work < s.work

section Stages

variable {client client' server server' : Party} {b d m : Word} {e gone : Bool} {cw sw sent messages : List Word} {c : Course}

theorem Plain.snoc (plain : Plain sent) (word : m.Plain) : Plain (sent ++ [m]) := by
  simp only [Plain,List.forall_mem_append,List.forall_mem_singleton]
  exact ⟨plain,word⟩

theorem plain_nil : Plain [] := List.forall_mem_nil _

theorem client_stays (still : client.client (server.place = .closed) = (client,[])) :
    Advances c ⟨client,server⟩ .client := by
  left
  simp [step,still,Party.sent]

theorem server_stays (still : server.server (client.place = .closed) = (server,[])) :
    Advances c ⟨client,server⟩ .server := by
  left
  simp [step,still,Party.sent]

theorem client_moves (moved : client.client (server.place = .closed) = (client',messages))
    (less : client'.work + messages.length < client.work) (stage : Stage ⟨client',server.sent messages⟩ c) :
    Advances c ⟨client,server⟩ .client := by
  right
  simp only [step,moved]
  refine ⟨stage,?_⟩
  simp only [State.work,Party.work,Party.sent,List.length_append] at less ⊢
  omega

theorem server_moves (moved : server.server (client.place = .closed) = (server',messages))
    (less : server'.work + messages.length < server.work) (stage : Stage ⟨client.sent messages,server'⟩ c) :
    Advances c ⟨client,server⟩ .server := by
  right
  simp only [step,moved]
  refine ⟨stage,?_⟩
  simp only [State.work,Party.work,Party.sent,List.length_append] at less ⊢
  omega

theorem sent_nil (p : Party) : p.sent [] = p := by simp [Party.sent]

theorem client_reads (read : client.client (server.place = .closed) = (client',[])) (less : client'.work < client.work)
    (stage : Stage ⟨client',server⟩ c) : Advances c ⟨client,server⟩ .client :=
  client_moves read less (by rwa [sent_nil])

theorem server_reads (read : server.server (client.place = .closed) = (server',[])) (less : server'.work < server.work)
    (stage : Stage ⟨client,server'⟩ c) : Advances c ⟨client,server⟩ .server :=
  server_moves read less (by rwa [sent_nil])

theorem Told.keeps (told : Told client) (messages : List Word) : Told (client.sent messages) := by
  cases told with
  | closed place => exact .closed place
  | receiving plain ends =>
    simp only [Party.sent,List.append_assoc,List.cons_append]
    exact .receiving plain ends

theorem Told.advances (told : Told client) (next : ∀ {client'}, Told client' → Stage ⟨client',server⟩ c) :
    Advances c ⟨client,server⟩ .client := by
  cases told with
  | closed place => exact client_stays (by simp [Party.client,place])
  | @receiving sent e b words last rest plain ends =>
    cases sent with
    | nil =>
      rcases ends with hash | ⟨star,rfl⟩
      · exact client_reads (Party.client_hash hash) (Party.read_less (by decide)) (next (.closed rfl))
      · exact client_reads (Party.client_star star) (Party.read_less (by decide)) (next (.closed rfl))
    | cons word sent =>
      obtain ⟨word,plain⟩ := List.forall_mem_cons.mp plain
      exact client_reads (Party.client_plain word) (Party.read_less (Nat.le_refl _)) (next (.receiving plain ends))

theorem listening_open (first : Bool) : listening first ≠ .closed := by
  cases first <;> simp [listening]

theorem client_blocks (place : client.place = .receiving) (quiet : client.inbox = []) (alive : server.place ≠ .closed) :
    Advances c ⟨client,server⟩ .client :=
  client_stays (by simp [Party.client,place,Party.recv,quiet,alive])

theorem server_blocks (first : Bool) (place : server.place = listening first) (quiet : server.inbox = [])
    (alive : client.place ≠ .closed) : Advances c ⟨client,server⟩ .server :=
  server_stays (by cases first <;> simp [Party.server,place,listening,Party.recv,quiet,alive])

/-- While plain words only come to it, a side that listens reads on and then blocks. -/
theorem client_listens (plain : Plain sent) (alive : server.place ≠ .closed)
    (next : ∀ {b sent}, Plain sent → Stage ⟨⟨.receiving,b,e,cw,sent⟩,server⟩ c) :
    Advances c ⟨⟨.receiving,b,e,cw,sent⟩,server⟩ .client := by
  cases sent with
  | nil => exact client_blocks rfl rfl alive
  | cons word sent =>
    obtain ⟨word,plain⟩ := List.forall_mem_cons.mp plain
    exact client_reads (Party.client_plain word) (Party.read_less (Nat.le_refl _)) (next plain)

theorem server_listens {first : Bool} (plain : Plain sent) (alive : client.place ≠ .closed)
    (next : ∀ {d sent}, Plain sent → Stage ⟨client,⟨listening first,d,e,sw,sent⟩⟩ c) :
    Advances c ⟨client,⟨listening first,d,e,sw,sent⟩⟩ .server := by
  cases sent with
  | nil => exact server_blocks first rfl rfl alive
  | cons word sent =>
    obtain ⟨word,plain⟩ := List.forall_mem_cons.mp plain
    exact server_reads (Party.server_plain word) (Party.read_less (Nat.le_refl _)) (next plain)

theorem clientTypes_client {first : Bool} (plain : Plain sent) :
    Advances (course first cw sw) ⟨⟨.typing,b,false,cw,[]⟩,⟨listening first,d,false,sw,sent⟩⟩ .client := by
  cases cw with
  | nil => exact client_stays rfl
  | cons w cw =>
    rcases w.cases with long | ⟨fits,word⟩ | ⟨fits,star⟩ | ⟨fits,hash⟩
    · refine client_reads (Party.types_long long) Party.overrun_less ?_
      rw [course_long long]
      exact .clientOverruns rfl plain
    · refine client_moves (Party.types_plain fits word) (Party.typed_less _) ?_
      rw [course_plain fits word]
      exact .clientTypes (plain.snoc word)
    · refine client_moves (Party.types_star fits star) (Party.typed_less _) ?_
      rw [course_star fits star]
      exact .clientYields plain star
    · refine client_moves (Party.types_hash fits hash) (Party.typed_less _) ?_
      rw [course_hash fits hash]
      cases first with
      | true => exact .clientHashes (.repeating hash) rfl plain hash
      | false =>
        refine .stuck (.repeating hash) rfl ?_ (.inr ⟨w,by simp,hash⟩)
        simp only [List.forall_mem_append,List.forall_mem_singleton]
        exact ⟨fun m member => (plain m member).1,by simp [hash]⟩

theorem repeats_client {words inbox : List Word}
    (stage : Stage ⟨⟨.receiving,b.starred,true,words,inbox⟩,server.sent [b]⟩ c) :
    Advances c ⟨⟨.repeating,b,false,words,inbox⟩,server⟩ .client :=
  client_moves rfl (by simp [Party.work,Place.weight]) stage

theorem client_advances {s : State} (stage : Stage s c) : Advances c s .client := by
  cases stage with
  | greets => exact client_stays (by simp [Party.client,Party.recv])
  | greeted =>
    refine client_reads rfl (by simp [Party.recv,Party.work,Place.weight]) ?_
    exact @Stage.clientTypes [] _ _ true _ _ plain_nil
  | clientTypes plain => exact clientTypes_client plain
  | clientYields => exact client_blocks rfl rfl (listening_open _)
  | serverTypes plain => exact client_listens plain (by simp) .serverTypes
  | @serverYields sent b cw last d sw plain ends =>
    cases sent with
    | nil =>
      refine client_reads (Party.client_star ends) (Party.read_less (by decide)) ?_
      exact @Stage.clientTypes [] _ _ false _ _ plain_nil
    | cons word sent =>
      obtain ⟨word,plain⟩ := List.forall_mem_cons.mp plain
      exact client_reads (Party.client_plain word) (Party.read_less (Nat.le_refl _)) (.serverYields plain ends)
  | serverHashes told hash => exact told.advances fun told => .serverHashes told hash
  | serverLeaves told star => exact told.advances fun told => .serverLeaves told star
  | closed place other => exact client_stays (by simp [Party.client,place])
  | stuck pledged quiet unstarred seen =>
    cases pledged with
    | repeating hash =>
      refine repeats_client (.stuck (.receiving hash) quiet ?_ ?_)
      · simp only [List.forall_mem_append,List.forall_mem_singleton]
        exact ⟨unstarred,by simp [hash]⟩
      · exact seen.imp_right fun ⟨m,member,hash⟩ => ⟨m,by simp [member],hash⟩
    | receiving hash => exact client_blocks rfl quiet (by simp)
  | clientHashes pledged quiet plain last =>
    cases pledged with
    | repeating hash =>
      refine repeats_client ?_
      simp only [Party.sent,List.append_assoc,List.cons_append,List.nil_append]
      exact .clientHashes (.receiving hash) quiet plain last
    | receiving hash => exact client_blocks rfl quiet (by simp)
  | serverAnswers pledged plain =>
    cases pledged with
    | repeating hash => exact repeats_client (.serverAnswers (.receiving hash) plain)
    | receiving hash => exact client_listens plain (by simp) (.serverAnswers (.receiving hash))
  | @answered client more sent last rest server pledged inbox plain ends answers sends =>
    cases pledged with
    | repeating hash =>
      refine repeats_client (.answered (.receiving hash) inbox plain ends ?_ ?_)
      · cases answers with
        | repeating hash => exact .repeating hash
        | receiving => exact .receiving
      · simp [Party.sent,sends]
    | receiving hash =>
      obtain rfl : _ = _ := inbox
      cases sent with
      | nil =>
        rcases ends with last | last
        · exact client_reads (Party.client_hash last) (Party.read_less (by decide))
            (.leaves rfl answers sends hash)
        · exact client_reads (Party.client_star last) (Party.read_less (by decide))
            (.leaves rfl answers sends hash)
      | cons word sent =>
        obtain ⟨word,plain⟩ := List.forall_mem_cons.mp plain
        exact client_reads (Party.client_plain word) (Party.read_less (Nat.le_refl _))
          (.answered (.receiving hash) rfl plain ends answers sends)
  | leaves place => exact client_stays (by simp [Party.client,place])
  | spins told hash => exact told.advances fun told => .spins told hash
  | clientOverruns place => exact client_stays (by simp [Party.client,place])
  | serverOverruns plain place => exact client_listens plain (by simp [place]) (.serverOverruns · place)
  | answerOverruns pledged plain place =>
    cases pledged with
    | repeating hash => exact repeats_client (.answerOverruns (.receiving hash) plain place)
    | receiving hash => exact client_listens plain (by simp [place]) (.answerOverruns (.receiving hash) · place)

theorem served_long (long : ¬m.Fits) : served cw (m :: sw) = .overruns .server := by
  simp only [served,turn_long long]

theorem served_plain (fits : m.Fits) (word : m.Plain) : served cw (m :: sw) = served cw sw := by
  simp only [served,turn_plain fits word]

theorem served_star (fits : m.Fits) (star : m.first = '*') : served cw (m :: sw) = course false cw sw := by
  simp [served,turn_ends fits (.inl star),star]

theorem served_hash (fits : m.Fits) (hash : m.first = '#') : served cw (m :: sw) = .closes := by
  simp [served,turn_ends fits (.inr hash),hash]

theorem spun_long (long : ¬m.Fits) : spun (m :: sw) = .overruns .server := by
  simp only [spun,turn_long long]

theorem spun_plain (fits : m.Fits) (word : m.Plain) : spun (m :: sw) = spun sw := by
  simp only [spun,turn_plain fits word]

theorem spun_ends (fits : m.Fits) (ends : m.first = '*' ∨ m.first = '#') : spun (m :: sw) = .spins := by
  simp only [spun,turn_ends fits ends]

theorem serverTypes_server (plain : Plain sent) :
    Advances (served cw sw) ⟨⟨.receiving,b,false,cw,sent⟩,⟨.typing,d,false,sw,[]⟩⟩ .server := by
  cases sw with
  | nil => exact server_stays rfl
  | cons w sw =>
    rcases w.cases with long | ⟨fits,word⟩ | ⟨fits,star⟩ | ⟨fits,hash⟩
    · refine server_reads (Party.types_long long) Party.overrun_less ?_
      rw [served_long long]
      exact .serverOverruns plain rfl
    · refine server_moves (Party.types_plain fits word) (Party.typed_less _) ?_
      rw [served_plain fits word]
      exact .serverTypes (plain.snoc word)
    · refine server_moves (Party.types_star fits star) (Party.typed_less _) ?_
      rw [served_star fits star]
      exact .serverYields plain star
    · refine server_moves (Party.types_hash fits hash) (Party.typed_less _) ?_
      rw [served_hash fits hash]
      exact .serverHashes (.receiving plain (.inl hash)) hash

theorem Pledged.open (pledged : Pledged client messages) : client.place ≠ .closed := by
  cases pledged <;> simp

theorem Pledged.keeps (pledged : Pledged client sent) (messages : List Word) : Pledged (client.sent messages) sent := by
  cases pledged with
  | repeating hash => exact .repeating hash
  | receiving hash => exact .receiving hash

theorem serverAnswers_server (pledged : Pledged client messages) (plain : Plain client.inbox) :
    Advances (spun sw) ⟨client,⟨.typing,d,true,sw,messages⟩⟩ .server := by
  cases sw with
  | nil => exact server_stays rfl
  | cons w sw =>
    rcases w.cases with long | ⟨fits,word⟩ | ⟨fits,star⟩ | ⟨fits,hash⟩
    · refine server_reads (Party.types_long long) Party.overrun_less ?_
      rw [spun_long long]
      exact .answerOverruns pledged plain rfl
    · refine server_moves (Party.types_plain fits word) (Party.typed_less _) ?_
      rw [spun_plain fits word]
      exact .serverAnswers (pledged.keeps _) (plain.snoc word)
    · refine server_moves (Party.types_star fits star) (Party.typed_less _) ?_
      rw [spun_ends fits (.inl star)]
      exact .answered (pledged.keeps _) rfl plain (.inr star) .receiving rfl
    · refine server_moves (Party.types_hash fits hash) (Party.typed_less _) ?_
      rw [spun_ends fits (.inr hash)]
      exact .answered (pledged.keeps _) rfl plain (.inl hash) (.repeating hash) rfl

theorem repeats_server {words inbox : List Word}
    (stage : Stage ⟨client.sent [d],⟨.receiving,d.starred,true,words,inbox⟩⟩ c) :
    Advances c ⟨client,⟨.repeating,d,e,words,inbox⟩⟩ .server :=
  server_moves rfl (by simp [Party.work,Place.weight]) stage

theorem stuck_server (pledged : Pledged client messages) (quiet : client.inbox = []) (unstarred : ∀ m ∈ sent, m.first ≠ '*')
    (seen : e = true ∨ ∃ m ∈ sent, m.first = '#') :
    Advances .stuck ⟨client,⟨.receiving,d,e,sw,sent⟩⟩ .server := by
  cases sent with
  | nil => exact server_blocks false rfl rfl pledged.open
  | cons m sent =>
    obtain ⟨other,unstarred⟩ := List.forall_mem_cons.mp unstarred
    by_cases hash : m.first = '#'
    · exact server_reads (Party.server_receiving_hash hash) (Party.read_less (Nat.le_refl _))
        (.stuck pledged quiet unstarred (.inl rfl))
    · refine server_reads (@Party.server_plain m _ _ _ false _ _ ⟨other,hash⟩) (Party.read_less (Nat.le_refl _)) ?_
      exact .stuck pledged quiet unstarred (by simpa [hash] using seen)

theorem server_advances {s : State} (stage : Stage s c) : Advances c s .server := by
  cases stage with
  | greets => exact server_moves rfl (by simp [Party.work,Place.weight]) .greeted
  | greeted => exact server_blocks true rfl rfl (by simp)
  | clientTypes plain => exact server_listens plain (by simp) .clientTypes
  | @clientYields sent b cw first d sw last plain ends =>
    cases sent with
    | nil =>
      exact server_reads (Party.server_star ends) (Party.read_less (by cases first <;> decide)) (.serverTypes plain_nil)
    | cons word sent =>
      obtain ⟨word,plain⟩ := List.forall_mem_cons.mp plain
      exact server_reads (Party.server_plain word) (Party.read_less (Nat.le_refl _)) (.clientYields plain ends)
  | serverTypes plain => exact serverTypes_server plain
  | serverYields => exact server_blocks false rfl rfl (by simp)
  | serverHashes told hash => exact repeats_server (.serverLeaves (told.keeps _) rfl)
  | serverLeaves told star =>
    cases told with
    | closed place =>
      exact server_reads (Party.server_leaves star (by simp [place])) (by simp [Party.work,Place.weight]) (.closed place rfl)
    | receiving => exact server_blocks false rfl rfl (by simp)
  | closed place other => exact server_stays (by simp [Party.server,other])
  | stuck pledged quiet unstarred seen => exact stuck_server pledged quiet unstarred seen
  | @clientHashes client more sent last d sw pledged quiet plain hash =>
    cases sent with
    | nil =>
      exact server_reads (Party.server_opening_hash hash) (Party.read_less (by decide))
        (.serverAnswers pledged (by simp [quiet,plain_nil]))
    | cons word sent =>
      obtain ⟨word,plain⟩ := List.forall_mem_cons.mp plain
      exact server_reads (@Party.server_plain _ _ _ _ true _ _ word) (Party.read_less (Nat.le_refl _))
        (.clientHashes pledged quiet plain hash)
  | serverAnswers pledged plain => exact serverAnswers_server pledged plain
  | @answered client more sent last rest server pledged inbox plain ends answers sends =>
    cases answers with
    | @repeating b words unread hash =>
      have longer : (client.sent [b]).inbox = sent ++ last :: (rest ++ [b]) := by simp [Party.sent,inbox]
      exact repeats_server (.answered (pledged.keeps _) longer plain ends .receiving sends)
    | receiving =>
      cases pledged with
      | repeating hash => exact server_blocks false rfl sends (by simp)
      | receiving hash =>
        obtain rfl : _ = _ := sends
        obtain rfl : _ = _ := inbox
        refine server_reads (Party.server_receiving_hash hash) (Party.read_less (Nat.le_refl _)) (.spins (.receiving plain ?_) hash)
        simpa using ends
  | leaves place answers sends hash =>
    cases answers with
    | repeating => exact repeats_server (.leaves place .receiving sends hash)
    | receiving =>
      obtain rfl : _ = _ := sends
      exact server_reads (Party.server_receiving_hash hash) (Party.read_less (Nat.le_refl _)) (.spins (.closed place) hash)
  | spins told hash =>
    cases told with
    | closed place => exact server_stays (by simp [Party.server,Party.recv,place,Party.noteHash,Party.leaveTo,hash])
    | receiving => exact server_blocks false rfl rfl (by simp)
  | clientOverruns place plain => exact server_listens plain (by simp [place]) (.clientOverruns place)
  | serverOverruns _ place => exact server_stays (by simp [Party.server,place])
  | answerOverruns _ _ place => exact server_stays (by simp [Party.server,place])

theorem step_advances {s : State} (stage : Stage s c) (side : Side) : Advances c s side :=
  match side with
  | .client => client_advances stage
  | .server => server_advances stage

end Stages

section Rest

variable {s : State} {c : Course}

/-- What a conversation of each course comes to. A server that spins shows the hash again in every
step. Both sides of one that is stuck have been told to exit. -/
def Settled (s : State) : Course → Prop
  | .closes => s.client.place = .closed ∧ s.server.place = .closed
  | .spins => s.client.place = .closed ∧ s.server.place = .receiving ∧ ∃ w, w.first = '#' ∧ shown s = some w
  | .stuck => (s.client.place = .receiving ∧ s.client.exitFunc = true ∧ s.client.inbox = []) ∧
      s.server.place = .receiving ∧ s.server.exitFunc = true ∧ s.server.inbox = []
  | .waits .client => (s.client.place = .typing ∧ s.client.words = []) ∧
      (s.server.place = .opening ∨ s.server.place = .receiving) ∧ s.server.inbox = []
  | .waits .server => (s.server.place = .typing ∧ s.server.words = []) ∧ s.client.place = .receiving ∧ s.client.inbox = []
  | .overruns .client => s.client.place = .overrun
  | .overruns .server => s.server.place = .overrun

end Rest

end Ndp.Chat
