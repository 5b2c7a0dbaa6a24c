import Trailermatic.Feed

/-!
# Sessions

A session is what the daemon was told in its configuration, and the history it keeps.
-/

namespace Trailermatic

def AM_DEFAULT_MAXBUCKET : UInt16 := 30

def AM_DEFAULT_INTERVAL : UInt8 := 30

/-- `auto_handle`, the state of the program. -/
structure Session where
  statefile : Str
  downloadFolder : Str
  prowlKey : Option Str
  downloadDoneScript : Option Str
  feeds : List RssFeed
  filters : List Filter
  downloads : List Str
  prowlKeyValid : Bool
  maxBucketItems : UInt16
  bucketChanged : Bool
  checkInterval : UInt8
  matchOnly : Bool

/-- A session with one filter, and neither notifications nor a script. -/
def Session.plain (feeds : List RssFeed) (downloads : List Str) : Session where
  statefile := ⟨text "/s", by decide, by decide⟩
  downloadFolder := ⟨text "/t", by decide, by decide⟩
  prowlKey := none
  downloadDoneScript := none
  feeds := feeds
  filters := [⟨some (text "m"), none⟩]
  downloads := downloads
  prowlKeyValid := false
  maxBucketItems := AM_DEFAULT_MAXBUCKET
  bucketChanged := false
  checkInterval := AM_DEFAULT_INTERVAL
  matchOnly := false

end Trailermatic
