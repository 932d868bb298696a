import Gfm.Store.TextArchive

/-!
# The prefix archive

An archive of ids under prefixes. A lookup searches the directory, which keeps the prefixes as they
were given, for the normal form of its prefix, unless that is blank.
-/

namespace Gfm.Store

open SliceSearch Wire

def prefixMagicV1 : Bytes := LineLog.encodeText "gfm-prefix-v1\n".toList

def prefixIndexFooter : Bytes := LineLog.encodeText "gfm-prefix-index-v1\n".toList

def prefixChecksumFooter : Bytes := LineLog.encodeText "gfm-prefix-checksum-v1\n".toList

abbrev PrefixPosting := KeyedPosting Text

abbrev LimitedPrefixPosting := LimitedKeyedPosting Text

abbrev PrefixDirectoryEntry := KeyedDirectoryEntry Text

abbrev MmapPrefixArchive := MmapKeyedArchive Text

def normalizePrefix (unicode : Unicode) (text : Text) : Text := asciiNormal unicode text

/-- The normal form that a lookup goes by. -/
def prefixKey (unicode : Unicode) (prefixText : Text) : Option Text :=
  let text := normalizePrefix unicode prefixText
  if text = [] then none else some text

def prefixArchive : TextArchive where
  label := "prefix"
  magic := prefixMagicV1
  indexFooter := prefixIndexFooter
  checksumFooter := prefixChecksumFooter
  invalidHeader := "invalid UTF-8 prefix in archive"
  invalidEntry := "invalid UTF-8 prefix in directory"
  unsorted := "batch prefix lookup terms must be sorted"

def prefixFormat (unicode : Unicode) (report : Bytes → String) : KeyedFormat Text :=
  prefixArchive.format unicode report

def writePrefixPostings (unicode : Unicode) (postings : List PrefixPosting) : Bytes :=
  prefixArchive.write unicode postings

namespace MmapPrefixArchive

variable (unicode : Unicode) (report : Bytes → String)

def openArchive (path : Path) (mmap : Bytes) : Except Fault MmapPrefixArchive :=
  prefixArchive.openArchive unicode report path mmap

variable (search : Search Text) (archive : MmapPrefixArchive)

def postingFor (prefixText : Text) : Except Fault (Option PrefixPosting) :=
  (prefixFormat unicode report).posting search archive (prefixKey unicode prefixText)

def idsFor (prefixText : Text) : Except Fault (List FileId) :=
  (prefixFormat unicode report).idsFor search archive (prefixKey unicode prefixText)

def idsForLimit (prefixText : Text) (limit : Nat) : Except Fault (List FileId × Bool) :=
  (prefixFormat unicode report).idsForLimit search archive (prefixKey unicode prefixText) limit

def idsForVolumeLimit (prefixText : Text) (volume : VolumeId) (limit : Nat) :
    Except Fault (List FileId × Bool) :=
  (prefixFormat unicode report).idsForVolumeLimit search archive (prefixKey unicode prefixText)
    volume limit

def postingsForSortedPrefixesLimit (prefixes : List Text) (limitPerPrefix : Nat) :
    Except Fault (List LimitedPrefixPosting) :=
  (prefixFormat unicode report).postingsForSortedLimit archive
    (prefixes.filterMap (prefixKey unicode)) limitPerPrefix

end MmapPrefixArchive

end Gfm.Store
