import Patchwork.Text.Blank

/-!
# Patterns in texts

A pattern is matched from left to right and takes back choices that do not lead to a
match: an alternative tries its first branch first, a greedy repetition tries to go on
before it tries to stop, and a lazy one tries to stop first. So of all ways to match the
first one in this order is found.
-/

namespace Patchwork

/-- A place in a text, with the groups that were matched before it. -/
structure Cursor where
  /-- The characters before it, the last one first. -/
  before : List Char := []
  rest : List Char
  position : Nat := 0
  groups : List (Nat × String) := []

def Cursor.advance (c : Cursor) (x : Char) (rest : List Char) : Cursor :=
  { c with before := x :: c.before, rest, position := c.position + 1 }

/-- What a text is matched with. -/
inductive Pattern where
  | char (accepts : Char → Bool)
  | lineStart
  | lineEnd
  | textEnd
  /-- The character before is of a class. -/
  | behind (accepts : Char → Bool)
  /-- What follows matches some patterns. -/
  | ahead (body : List Pattern)
  | either (left right : List Pattern)
  /-- A sequence repeated at least and at most so many times. -/
  | iterate (greedy : Bool) (least : Nat) (most : Option Nat) (body : List Pattern)
  /-- A sequence whose text is kept under a number. -/
  | group (number : Nat) (body : List Pattern)
  /-- The end of a group that began at a position. -/
  | close (number start : Nat)
  /-- A place behind a position. -/
  | beyond (start : Nat)

namespace Pattern

/-! ## Notations for common patterns -/

def literal (s : String) : List Pattern := s.toList.map fun c => char (· == c)

def any : Pattern := char fun _ => true

def many (body : List Pattern) : Pattern := iterate true 0 none body

/-- A sequence repeated as often as possible, at least once. -/
def many1 (body : List Pattern) : Pattern := iterate true 1 none body

def lazy (body : List Pattern) : Pattern := iterate false 0 none body

def maybe (body : List Pattern) : Pattern := iterate true 0 (some 1) body

def oneOf : List (List Pattern) → Pattern
  | [] => char fun _ => false
  | p :: ps => either p [oneOf ps]

def blank : Pattern := char Text.isBlank

/-! ## Matching -/

mutual

def weight : Pattern → Nat
  | ahead body => weightAll body + 2
  | either left right => weightAll left + weightAll right + 2
  | iterate _ least _ body => (least + 1) * (weightAll body + 3)
  | group _ body => weightAll body + 2
  | _ => 1

def weightAll : List Pattern → Nat
  | [] => 1
  | p :: ps => p.weight + weightAll ps

end

/-- Matches patterns one after the other, taking at most `steps` steps along any way. -/
def run : Nat → List Pattern → Cursor → Option Cursor
  | 0, _, _ => none
  | _ + 1, [], c => some c
  | steps + 1, p :: ps, c =>
    match p with
    | char accepts => match c.rest with
      | x :: rest => if accepts x then run steps ps (c.advance x rest) else none
      | [] => none
    | lineStart => match c.before with
      | [] => run steps ps c
      | x :: _ => if x == '\n' then run steps ps c else none
    | lineEnd => match c.rest with
      | [] => run steps ps c
      | x :: _ => if x == '\n' then run steps ps c else none
    | textEnd => if c.rest.isEmpty then run steps ps c else none
    | behind accepts => match c.before with
      | x :: _ => if accepts x then run steps ps c else none
      | [] => none
    | ahead body => if (run steps body c).isSome then run steps ps c else none
    | either left right => (run steps (left ++ ps) c).orElse fun _ => run steps (right ++ ps) c
    | iterate greedy least most body =>
      let again := iterate greedy (least - 1) (most.map (· - 1)) body
      let goOn : Unit → Option Cursor := fun _ =>
        if most = some 0 then none else run steps (body ++ beyond c.position :: again :: ps) c
      if 0 < least then goOn ()
      else if greedy then (goOn ()).orElse fun _ => run steps ps c
      else (run steps ps c).orElse goOn
    | group number body => run steps (body ++ close number c.position :: ps) c
    | close number start =>
      let text := String.ofList (c.before.take (c.position - start)).reverse
      run steps ps { c with groups := (number, text) :: c.groups }
    | beyond start => if start < c.position then run steps ps c else none

/-- A match at a place. There are at most as many steps as characters left, times the
steps that the patterns need at one place. -/
def matchAt (ps : List Pattern) (c : Cursor) : Option Cursor :=
  run ((c.rest.length + 2) * (2 * weightAll ps + 4)) ps { c with groups := [] }

structure Occurrence where
  /-- The text between the previous match and this one. -/
  gap : String
  text : String
  groups : List (Nat × String)

def Occurrence.group (o : Occurrence) (number : Nat) : String := (o.groups.lookup number).getD ""

def between (start stop : Cursor) : String :=
  String.ofList (stop.before.take (stop.position - start.position)).reverse

/-- The first match at or after a place, with the place where it begins. -/
def search (ps : List Pattern) (before : List Char) (position : Nat) : List Char → Option (Cursor × Cursor)
  | [] =>
    let c : Cursor := { before, rest := [], position }
    (matchAt ps c).map fun found => (c, found)
  | x :: rest =>
    let c : Cursor := { before, rest := x :: rest, position }
    match matchAt ps c with
    | some found => some (c, found)
    | none => search ps (x :: before) (position + 1) rest

/-- Matches from a place on; at most `steps` of them. An empty match moves on by one
character. -/
def occurrencesFrom (ps : List Pattern) : Nat → Cursor → Cursor → List Occurrence × String
  | 0, last, _ => ([], String.ofList last.rest)
  | steps + 1, last, place =>
    match search ps place.before place.position place.rest with
    | none => ([], String.ofList last.rest)
    | some (start, stop) =>
      let found : Occurrence := { gap := between last start, text := between start stop, groups := stop.groups }
      let next := match stop.rest with
        | x :: rest => if stop.position = start.position then stop.advance x rest else stop
        | [] => stop
      if stop.rest.isEmpty then ([found], "")
      else
        let (more, tail) := occurrencesFrom ps steps stop next
        (found :: more, tail)

/-- All matches in a text that do not overlap, and what follows the last one. -/
def occurrences (ps : List Pattern) (s : String) : List Occurrence × String :=
  let start : Cursor := { rest := s.toList }
  occurrencesFrom ps (s.length + 1) start start

def first? (ps : List Pattern) (s : String) : Option Occurrence := (occurrences ps s).1.head?

def substitute (ps : List Pattern) (replacement : Occurrence → String) (s : String) : String :=
  let (found, tail) := occurrences ps s
  String.join (found.map fun o => o.gap ++ replacement o) ++ tail

end Pattern

end Patchwork
