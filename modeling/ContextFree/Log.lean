namespace ContextFree

inductive Level where
  | none
  | error
  | warning
  | info
  | debug
  deriving DecidableEq

namespace Level

def name : Level → String
  | .none => "none"
  | .error => "error"
  | .warning => "warning"
  | .info => "info"
  | .debug => "debug"

def all : List Level := [.none, .error, .warning, .info, .debug]

def ofName? (name : String) : Option Level := all.find? (·.name == name)

def rank : Level → Nat
  | .none => 0
  | .error => 1
  | .warning => 2
  | .info => 3
  | .debug => 4

def le (s t : Level) : Bool := s.rank ≤ t.rank

def colour : Level → String
  | .error => "\x1b[31;49;1m"
  | .warning => "\x1b[33;49;1m"
  | .info => "\x1b[39;49;1m"
  | .debug => "\x1b[90;49m"
  | .none => "\x1b[90;49m"

end Level

structure Message where
  level : Level
  text : String
  deriving DecidableEq

namespace Message

def shownAt (setting : Level) (m : Message) : Bool := m.level != .none && m.level.le setting

def display (m : Message) : String :=
  m.level.colour ++ "[" ++ m.level.name ++ "]\x1b[0m  " ++ m.text

end Message

end ContextFree
