namespace Caret.Expansion

structure Cache (α : Type) where
  entries : List (String × α) := []

namespace Cache

variable {α : Type}

def get? (c : Cache α) (key : String) : Option α := c.entries.lookup key

def insert (c : Cache α) (key : String) (value : α) : Cache α :=
  ⟨(key, value) :: c.entries.filter fun p => p.1 != key⟩

def contains (c : Cache α) (key : String) : Bool := (c.get? key).isSome

def size (c : Cache α) : Nat := c.entries.length

def isEmpty (c : Cache α) : Bool := c.entries.isEmpty

def render (c : Cache α) : String :=
  "GrammarCache \x7b entries: " ++ toString c.size ++ " \x7d"

end Cache

end Caret.Expansion
