namespace Typesetter

abbrev Phrasebook := String → String → String → Option String

structure PhraseEntry where
  source : String
  target : String
  phrase : String
  rendering : String
  deriving DecidableEq, Repr

namespace Phrasebook

def none : Phrasebook := fun _ _ _ => Option.none

/-- A phrase stays the same in its own language; of two entries for one phrase the later counts. -/
def ofList (entries : List PhraseEntry) : Phrasebook := fun phrase source target =>
  if source = target then some phrase
  else
    (entries.reverse.find? fun e =>
      e.source = source && e.target = target && e.phrase = phrase).map (·.rendering)

end Phrasebook

end Typesetter
