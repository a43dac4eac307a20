import Std.Data.TreeMap
import Typesetter.Document.Listing
import Typesetter.Tree.Basic

namespace Typesetter

structure RegistryEntry where
  arity : Option Arity := none
  defaults : List (Nat × Tree) := []
  properties : Listing Tree := []

abbrev Registry := Std.TreeMap String RegistryEntry

namespace Registry

def entry (r : Registry) (tag : String) : RegistryEntry := r[tag]?.getD {}

def setArity (r : Registry) (tag : String) (arity : Arity) : Registry :=
  r.insert tag { r.entry tag with arity := some arity }

def setDefault (r : Registry) (tag : String) (index : Nat) (value : Tree) : Registry :=
  r.insert tag { r.entry tag with defaults := (index, value) :: (r.entry tag).defaults }

def setProperty (r : Registry) (tag property : String) (value : Tree) : Registry :=
  r.insert tag { r.entry tag with properties := (r.entry tag).properties.insert property value }

def arity? (r : Registry) (tag : String) : Option Arity := (r.entry tag).arity

def default? (r : Registry) (tag : String) (index : Nat) : Option Tree :=
  (r.entry tag).defaults.lookup index

def property? (r : Registry) (tag property : String) : Option Tree :=
  (r.entry tag).properties.get? property

def properties? (r : Registry) (tag : String) : Option (Listing Tree) :=
  r[tag]?.map (·.properties)

end Registry

end Typesetter
