import TortoiseSvn.LogCache.Globals

/-!
# The revision index

`CRevisionIndex` maps revisions to the indices of their data. Only a range of revisions is stored;
all others have no data.
-/

namespace TortoiseSvn.LogCache

/-- The mapping and its bias.
Source: `RevisionIndex.h` `CRevisionIndex` -/
structure CRevisionIndex where
  firstRevision : ℕ
  indices : List Index
  deriving DecidableEq

namespace CRevisionIndex

/-- Source: `RevisionIndex.h` `CRevisionIndex::operator[]` -/
def get (m : CRevisionIndex) (revision : ℕ) : Index :=
  m.indices.getD (subU revision m.firstRevision) ⊤

end CRevisionIndex

end TortoiseSvn.LogCache
