import IntentGrammar.Yaml.Scan

/-!
# Taking lexemes from a scan

Lexemes are read only as far as they are needed, so that a fault of the text comes to light when
the reader gets there, and not before.  `Reading.peek` shows the next lexeme and `Reading.take`
takes it away.

The next lexeme is settled when it is known not to be the start of a key, when the comments in
front of it have been given to it, and when one more lexeme has been read.  Comments are given to
the lexeme in front of them or to the one behind them, and are never seen themselves.
-/

namespace IntentGrammar.Yaml

namespace Scan

/-- Whether more of the text has to be read before the next lexeme can be told: it may be missing,
or the start of a key. -/
def needsMore (s : Scan) : Except Fault (Bool × Scan) :=
  if s.ended then .ok (false, s)
  else if s.queue.isEmpty then .ok (true, s)
  else do
    let s ← s.dropStale
    return ((s.candidates.map (·.place)).min? == some s.taken, s)

/-- Take the next lexeme away. -/
def pop (s : Scan) : Scan := { s with queue := s.queue.drop 1, taken := s.taken + 1 }

/-- The next lexeme is a comment. -/
def isAtComment (s : Scan) : Bool := s.queue.head?.any (·.sign == .comment)

/-- Read on as far as necessary.  `fuel` bounds the lexemes to be read. -/
def settle : Nat → Scan → Except Fault Scan
  | 0, s => .ok s
  | fuel + 1, s => do
    let (more, s) ← s.needsMore
    if more then settle fuel (← s.fetch) else return s

/-- Give the comments in front of the next lexeme to it; `found` tells whether there were any. -/
def gather (found : Bool) : Nat → Scan → Except Fault Scan
  | 0, s => .ok s
  | fuel + 1, s => do
    let isComment := s.isAtComment
    let (more, s) ← (if isComment then s.pop else s).needsMore
    if more then gather (found || isComment) fuel (← s.fetch)
    else if found || isComment then
      return { s with queue := s.queue.modifyHead fun l => { l with before := true } }
    else return s

/-- The most lexemes that there can still be, up to those that mark blocks and keys. -/
def fuel (s : Scan) : Nat := s.rest.length + s.queue.length + 2

/-- Settle what the next lexeme is. -/
def look (s : Scan) : Except Fault Scan := do
  let s ← settle s.fuel s
  if s.queue.isEmpty then return s
  let s ← gather false s.fuel s
  if !s.ended && s.queue.length < 2 then s.fetch else return s

/-- Take away the comments behind the next lexeme. -/
def dropBehind : Nat → Scan → Except Fault Scan
  | 0, s => .ok s
  | fuel + 1, s =>
    match s.queue with
    | l :: c :: rest =>
      if c.sign = .comment then do
        dropBehind fuel (← { s with queue := l :: rest, taken := s.taken + 1 }.fetch)
      else .ok s
    | _ => .ok s

end Scan

/-- Computations that take lexemes from a scan. -/
abbrev Reading := StateT Scan (Except Fault)

namespace Reading

/-- The next lexeme.  Behind the end of the text there is only the end. -/
def front (s : Scan) : Lexeme := s.queue.head?.getD (.bare .textEnd 0 0)

/-- Look at the next lexeme. -/
def peek : Reading Sign := do
  let s ← (← get).look
  set s
  return (front s).sign

/-- Change the comments of the next lexeme. -/
def modifyFront (f : Lexeme → Lexeme) : Reading Unit :=
  modify fun s => { s with queue := s.queue.modifyHead f }

/-- Take the next lexeme, with the comments behind it that go with it. -/
def take : Reading Lexeme := do
  let s ← (← get).look
  let l := front s
  let holds := s.queue[1]?.any l.holds
  let s ← if holds then s.dropBehind s.fuel else pure s
  set s.pop
  return { l with behind := l.behind || holds }

/-- Hand the comments of a lexeme that was taken over to the next one, unless the document starts
or the text ends there. -/
def handOver (l : Lexeme) : Reading Unit := do
  match ← peek with
  | .textEnd | .documentStart => pure ()
  | _ =>
    match l.handOver? (front (← get)) with
    | some target => modifyFront fun _ => target
    | none => throw .crowded

/-- Take a lexeme and hand its comments over to the next one. -/
def skip : Reading Unit := do
  handOver (← take)

end Reading

end IntentGrammar.Yaml
