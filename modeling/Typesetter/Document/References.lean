import Typesetter.Document.Store
/-!
References and attachments of a document: its own tables come before those of the project.
-/

namespace Typesetter

structure References where
  localRefs : Table := {}
  globalRefs : Table := {}
  localAttachments : Table := {}
  globalAttachments : Table := {}

namespace References

def binding? (r : References) (key : String) : Option Tree :=
  r.localRefs[key]? <|> r.globalRefs[key]?

def attachment? (r : References) (key : String) : Option Tree :=
  r.localAttachments[key]? <|> r.globalAttachments[key]?

end References

end Typesetter
