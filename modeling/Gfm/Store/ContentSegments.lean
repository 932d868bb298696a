import Gfm.Store.ContentArchive

/-!
# Content segments

The ids that a segment buries, then its postings, without blocks of ids and without a checksum.
-/

namespace Gfm.Store

open Wire

def contentSegmentMagic : Bytes := LineLog.encodeText "gfm-content-segment-v1\n".toList

def contentSegmentMagicV2 : Bytes := LineLog.encodeText "gfm-content-segment-v2\n".toList

def writeContentSegment (segment : ContentSegment) : Bytes :=
  contentSegmentMagicV2 ++ (writeFileIds segment.tombstones ++
    (writeVarint segment.postings.length ++
      segment.postings.flatMap fun posting => writeContentPosting posting .indexedPositions))

variable (path : Path) (report : Bytes → String)

def segmentVersion (magic : Bytes) : Except Fault ContentStoreVersion :=
  if magic = contentSegmentMagicV2 then .ok .indexedPositions
  else if magic = contentSegmentMagic then .ok .indexedIds
  else .error (.error (.format ("unsupported content segment header in " ++ path.display)))

/-- Both magic bytes are of one length. -/
def readContentSegment (bytes : Bytes) : Except Fault ContentSegment := do
  let (magic, rest) ← (readExact (ended path) contentSegmentMagic.length).run bytes
  let version ← segmentVersion path magic
  let (tombstones, rest) ← (readFileIds path).run rest
  let (postings, _) ← (readPostings path report version).run rest
  .ok { tombstones, postings }

end Gfm.Store
