import Gfm.Store.KeyedPostings
import Gfm.Store.Records
import Gfm.Store.TextArchive

/-!
# The substring archive

Every run of three characters in the normal form of a record's name lists the record. A lookup goes
by the normal form of what it is asked for, if that has three characters.
-/

namespace Gfm.Store

open Postings SliceSearch Sorted Wire

def substringMagicV1 : Bytes := LineLog.encodeText "gfm-substring-v1\n".toList

def substringIndexFooter : Bytes := LineLog.encodeText "gfm-substring-index-v1\n".toList

def substringChecksumFooter : Bytes := LineLog.encodeText "gfm-substring-checksum-v1\n".toList

def substringGramChars : Nat := 3

abbrev SubstringPosting := KeyedPosting Text

abbrev LimitedSubstringPosting := LimitedKeyedPosting Text

abbrev MmapSubstringArchive := MmapKeyedArchive Text

def normalizeSubstring (unicode : Unicode) (text : Text) : Text := asciiNormal unicode text

/-- The runs of three characters, in order, each once. -/
def substringGrams (value : Text) : List Text := sortDedup (charRuns substringGramChars value)

def isSubstringGram (value : Text) : Bool := value.length = substringGramChars

/-- The gram that a lookup goes by. -/
def gramKey (unicode : Unicode) (gram : Text) : Option Text :=
  let gram := normalizeSubstring unicode gram
  if isSubstringGram gram then some gram else none

def substringPostingsFromRecords (unicode : Unicode) (records : List FileRecord) :
    List SubstringPosting :=
  postingsOfMap (records.foldl (fun postings record =>
    addEach postings (substringGrams (normalizeSubstring unicode record.name)) record.id.val) ∅)

def substringArchive : TextArchive where
  label := "substring"
  magic := substringMagicV1
  indexFooter := substringIndexFooter
  checksumFooter := substringChecksumFooter
  invalidHeader := "invalid UTF-8 substring gram in archive"
  invalidEntry := "invalid UTF-8 gram in directory"
  unsorted := "batch substring lookup grams must be sorted"

def substringFormat (unicode : Unicode) (report : Bytes → String) : KeyedFormat Text :=
  substringArchive.format unicode report

def writeSubstringPostings (unicode : Unicode) (postings : List SubstringPosting) : Bytes :=
  substringArchive.write unicode postings

def MmapSubstringArchive.openArchive (unicode : Unicode) (report : Bytes → String) (path : Path)
    (mmap : Bytes) : Except Fault MmapSubstringArchive :=
  substringArchive.openArchive unicode report path mmap

namespace MmapSubstringArchive

variable (unicode : Unicode) (report : Bytes → String) (search : Search Text)
  (archive : MmapSubstringArchive)

def postingFor (gram : Text) : Except Fault (Option SubstringPosting) :=
  (substringFormat unicode report).posting search archive (gramKey unicode gram)

def idsFor (gram : Text) : Except Fault (List FileId) :=
  (substringFormat unicode report).idsFor search archive (gramKey unicode gram)

def idsForLimit (gram : Text) (limit : Nat) : Except Fault (List FileId × Bool) :=
  (substringFormat unicode report).idsForLimit search archive (gramKey unicode gram) limit

def idsForVolumeLimit (gram : Text) (volume : VolumeId) (limit : Nat) :
    Except Fault (List FileId × Bool) :=
  (substringFormat unicode report).idsForVolumeLimit search archive (gramKey unicode gram) volume
    limit

def postingsForSortedGramsLimit (grams : List Text) (limitPerGram : Nat) :
    Except Fault (List LimitedSubstringPosting) :=
  (substringFormat unicode report).postingsForSortedLimit archive
    (grams.filterMap (gramKey unicode)) limitPerGram

def postingsFor (grams : List Text) : Except Fault (List SubstringPosting) :=
  (substringFormat unicode report).postingsFor search archive (gramKey unicode)
    (grams.filterMap (gramKey unicode))

def postingsForLimit (grams : List Text) (limitPerGram : Nat) :
    Except Fault (List SubstringPosting) :=
  (substringFormat unicode report).postingsForLimit archive (gramKey unicode)
    (grams.filterMap (gramKey unicode)) limitPerGram

end MmapSubstringArchive

end Gfm.Store
