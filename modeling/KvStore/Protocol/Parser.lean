import KvStore.Repl.Control

/-!
# The command parser

`src/protocol/parser.cpp`. A position in the line is the rest of the line from there
on, and `npos` a rest with nothing in it.
-/

namespace KvStore.Protocol

open Lib
open Repl (ascii space newline)

/-- `CommandType`. -/
inductive CommandType where
  | set
  | get
  | del
  | stats
  | compact
  | begin
  | commit
  | rollback
  | quit
  | invalid
  deriving DecidableEq, Repr

/-- `ParsedCommand`, with its defaults. -/
structure ParsedCommand where
  type : CommandType := .invalid
  key : Bytes := []
  value : Bytes := []
  error : Bytes := []
  deriving DecidableEq, Repr

/-- `std::toupper` of the C locale, on every byte. -/
def upper (s : Bytes) : Bytes := s.map fun c => if 97 ≤ c ∧ c ≤ 122 then c - 32 else c

/-- The rest of the text from the first byte on that is not a blank. -/
def skipSpaces (s : Bytes) : Option Bytes :=
  match s.dropWhile (· = space) with
  | [] => none
  | rest => some rest

/-- A line that is no command, and why. -/
def invalid (why : Bytes) : ParsedCommand := { error := why }

/-- `parse`: the verb in whatever case, and what it asks for. -/
def parse (line : Bytes) : ParsedCommand :=
  match skipSpaces line with
  | none => invalid (ascii "empty command")
  | some line =>
      let verb := upper (line.takeWhile (· ≠ space))
      let rest := line.dropWhile (· ≠ space)
      if verb = ascii "STATS" then { type := .stats }
      else if verb = ascii "COMPACT" then { type := .compact }
      else if verb = ascii "BEGIN" then { type := .begin }
      else if verb = ascii "COMMIT" then { type := .commit }
      else if verb = ascii "ROLLBACK" then { type := .rollback }
      else if verb = ascii "QUIT" then { type := .quit }
      else if ¬ (verb = ascii "SET" ∨ verb = ascii "GET" ∨ verb = ascii "DEL") then
        invalid (ascii "unknown command '" ++ verb ++ ascii "'")
      else
        match skipSpaces rest with
        | none => invalid (verb ++ ascii " requires a key")
        | some line =>
            let key := line.takeWhile (· ≠ space)
            let rest := line.dropWhile (· ≠ space)
            if verb ≠ ascii "SET" then
              { type := if verb = ascii "GET" then .get else .del, key := key }
            else
              match skipSpaces rest with
              | none => invalid (ascii "SET requires a value")
              | some value => { type := .set, key := key, value := value }

end KvStore.Protocol
