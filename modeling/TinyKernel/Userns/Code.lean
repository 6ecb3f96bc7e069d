import Mathlib.Tactic

/-! The id maps of user namespaces, `kernel/user_namespace.c`: reading a map, writing it once from
text, and the tree of namespaces. -/

namespace TinyKernel.Userns

abbrev U32 := BitVec 32

abbrev Byte := BitVec 8

/-- `(u32) -1`, the id that stands for no id. -/
def invalidId : U32 := -1

/-- `UID_GID_MAP_MAX_EXTENTS` -/
def maxExtents : Nat := 5

/-- `struct uid_gid_extent` -/
structure Extent where
  first : U32
  lowerFirst : U32
  count : U32
  deriving DecidableEq, Repr

/-- `struct uid_gid_map`: the extents in use, which are the first ones of a fixed array. -/
structure UidGidMap where
  extents : List Extent
  fits : extents.length ≤ maxExtents

def mapIdRangeDown (map : UidGidMap) (id count : U32) : U32 :=
  let id2 := id + count - 1
  let holds (extent : Extent) : Bool :=
    let last := extent.first + extent.count - 1
    id ≥ extent.first && id ≤ last && (id2 ≥ extent.first && id2 ≤ last)
  match map.extents.find? holds with
  | some extent => (id - extent.first) + extent.lowerFirst
  | none => invalidId

def mapIdDown (map : UidGidMap) (id : U32) : U32 :=
  let holds (extent : Extent) : Bool :=
    let last := extent.first + extent.count - 1
    id ≥ extent.first && id ≤ last
  match map.extents.find? holds with
  | some extent => (id - extent.first) + extent.lowerFirst
  | none => invalidId

def mapIdUp (map : UidGidMap) (id : U32) : U32 :=
  let holds (extent : Extent) : Bool :=
    let last := extent.lowerFirst + extent.count - 1
    id ≥ extent.lowerFirst && id ≤ last
  match map.extents.find? holds with
  | some extent => (id - extent.lowerFirst) + extent.first
  | none => invalidId

section

/-- The bytes that `_ctype` marks as white space. -/
def isspace (c : Byte) : Bool := (9 ≤ c && c ≤ 13) || c = 32 || c = 160

/-- `isspace(*pos)`; the byte after the last one of a string is NUL, which is no space. -/
def spaceAt (pos : List Byte) : Bool := pos.head?.any isspace

def skipSpaces (str : List Byte) : List Byte := str.dropWhile isspace

/-- The value that `_parse_integer` gives to a character, if it is a digit in some radix. -/
def digit (c : Byte) : Option (BitVec 64) :=
  let lower := c ||| 0x20
  if 48 ≤ c && c ≤ 57 then some ((c - 48).setWidth 64)
  else if 97 ≤ lower && lower ≤ 102 then some ((lower - 97).setWidth 64 + 10)
  else none

/-- The loop of `_parse_integer`, which goes on after an overflow. -/
def parseInteger (base : BitVec 64) (res : BitVec 64) : List Byte → BitVec 64 × List Byte
  | [] => (res, [])
  | c :: s =>
    match digit c with
    | none => (res, c :: s)
    | some val => if val ≥ base then (res, c :: s) else parseInteger base (res * base + val) s

/-- `simple_strtoul` in base ten, stored in a `u32`, and where it stopped. -/
def simpleStrtoul (cp : List Byte) : U32 × List Byte :=
  let (result, endp) := parseInteger 10 0 cp
  (result.setWidth 32, endp)

def newline : Byte := 10

/-- What one line asks for, or nothing if it is not three numbers. -/
def readLine (line : List Byte) : Option Extent :=
  let (first, pos) := simpleStrtoul (skipSpaces line)
  if !spaceAt pos then none
  else
    let (lowerFirst, pos) := simpleStrtoul (skipSpaces pos)
    if !spaceAt pos then none
    else
      let (count, pos) := simpleStrtoul (skipSpaces pos)
      if pos ≠ [] ∧ !spaceAt pos then none
      else if skipSpaces pos ≠ [] then none
      else some ⟨first, lowerFirst, count⟩

/-- The lines of a string, `line` being what has been read of the first one. A newline at the very
end starts no further line. -/
def lines (line : List Byte) : List Byte → List (List Byte)
  | [] => [line]
  | c :: text =>
    if c = newline then if text = [] then [line] else line :: lines [] text
    else lines (line ++ [c]) text

end

inductive Errno where
  | perm
  | nomem
  | inval
  | fault
  /-- Not an error of the source: an extent was written behind the array. -/
  | overrun
  deriving DecidableEq, Repr

def mappingsOverlap (newMap : UidGidMap) (extent : Extent) : Bool :=
  let upperLast := extent.first + extent.count - 1
  let lowerLast := extent.lowerFirst + extent.count - 1
  newMap.extents.any fun prev =>
    let prevUpperLast := prev.first + prev.count - 1
    let prevLowerLast := prev.lowerFirst + prev.count - 1
    (prev.first ≤ upperLast && prevUpperLast ≥ extent.first) ||
      (prev.lowerFirst ≤ lowerLast && prevLowerLast ≥ extent.lowerFirst)

/-- The checks that one extent has to pass to follow those of `newMap`. -/
def extentAccepted (newMap : UidGidMap) (extent : Extent) : Bool :=
  if extent.first = invalidId || extent.lowerFirst = invalidId then false
  else if extent.first + extent.count ≤ extent.first then false
  else if extent.lowerFirst + extent.count ≤ extent.lowerFirst then false
  else !mappingsOverlap newMap extent

/-- The loop of `map_write` over the lines. -/
def parseLines (newMap : UidGidMap) : List (List Byte) → Except Errno UidGidMap
  | [] => .ok newMap
  | line :: nextLines =>
    -- the extent is written where the map ends, before it is checked
    if room : newMap.extents.length < maxExtents then
      match readLine line with
      | none => .error .inval
      | some extent =>
        if !extentAccepted newMap extent then .error .inval
        else
          let newMap : UidGidMap := ⟨newMap.extents ++ [extent], by simpa using room⟩
          if newMap.extents.length = maxExtents ∧ nextLines ≠ [] then .error .inval
          else parseLines newMap nextLines
    else .error .overrun

/-- The loop that maps the lower ids from the parent to the kernel. -/
def mapLower (parentMap : UidGidMap) : List Extent → Option (List Extent)
  | [] => some []
  | extent :: rest =>
    let lowerFirst := mapIdRangeDown parentMap extent.lowerFirst extent.count
    if lowerFirst = invalidId then none
    else (mapLower parentMap rest).map ({ extent with lowerFirst } :: ·)

theorem length_mapLower (done : mapLower parentMap extents = some mapped) :
    mapped.length = extents.length := by
  induction extents generalizing mapped with
  | nil =>
    cases done
    rfl
  | cons extent rest ih => ?_
  simp only [mapLower] at done
  split at done
  · cases done
  obtain ⟨later, found, rfl⟩ := Option.map_eq_some_iff.mp done
  simp [ih found]

def pageSize : Nat := 4096

/-- One call of `map_write`: the bytes and the position, and what the kernel says about the
capabilities of the caller, the page, the copy and the wanted map. -/
structure Call where
  text : List Byte
  ppos : Int
  capable : Bool
  page : Bool
  copied : Bool
  newIdmapPermitted : UidGidMap → Bool

/-- What `map_write` computes before it installs it. -/
def newMap (call : Call) (map parentMap : UidGidMap) : Except Errno UidGidMap :=
  if map.extents.length ≠ 0 then .error .perm
  else if !call.capable then .error .perm
  else if !call.page then .error .nomem
  else if call.ppos ≠ 0 ∨ call.text.length ≥ pageSize then .error .inval
  else if !call.copied then .error .fault
  else
    match parseLines ⟨[], Nat.zero_le _⟩ (lines [] (call.text.takeWhile (· ≠ 0))) with
    | .error error => .error error
    | .ok new =>
      if new.extents.length = 0 then .error .inval
      else if !call.newIdmapPermitted new then .error .perm
      else
        match done : mapLower parentMap new.extents with
        | none => .error .perm
        | some extents => .ok ⟨extents, (length_mapLower done).trans_le new.fits⟩

/-- `map_write`: the return value and the map after the call. -/
def mapWrite (call : Call) (map parentMap : UidGidMap) : Except Errno Nat × UidGidMap :=
  match newMap call map parentMap with
  | .error error => (.error error, map)
  | .ok new => (.ok call.text.length, new)

/-- `struct user_namespace`. A namespace is named by its place in the list of all of them. -/
structure UserNamespace where
  parent : Option Nat
  level : Nat
  uidMap : UidGidMap

def makeKuid (ns : UserNamespace) (uid : U32) : U32 := mapIdDown ns.uidMap uid

def fromKuid (targ : UserNamespace) (kuid : U32) : U32 := mapIdUp targ.uidMap kuid

def kuidHasMapping (ns : UserNamespace) (kuid : U32) : Bool := fromKuid ns kuid ≠ invalidId

def initUserNs : UserNamespace where
  parent := none
  level := 0
  uidMap := ⟨[⟨0, 0, 4294967295⟩], by decide⟩

/-- `create_user_ns` by an owner; `granted` stands for its conditions that do not read user ids. -/
def createUserNs (spaces : List UserNamespace) (parent : Nat) (owner : U32) (granted : Bool) :
    List UserNamespace :=
  match spaces[parent]? with
  | none => spaces
  | some parentNs =>
    if parentNs.level > 32 then spaces
    else if !granted || !kuidHasMapping parentNs owner then spaces
    else spaces ++ [⟨some parent, parentNs.level + 1, ⟨[], Nat.zero_le _⟩⟩]

/-- `proc_uid_map_write` by an opener in the namespace `seqNs`. -/
def procUidMapWrite (spaces : List UserNamespace) (place seqNs : Nat) (call : Call) :
    Except Errno Nat × List UserNamespace :=
  match spaces[place]? with
  | none => (.error .fault, spaces)
  | some ns =>
    match ns.parent with
    | none => (.error .perm, spaces)
    | some parent =>
      if seqNs ≠ place ∧ seqNs ≠ parent then (.error .perm, spaces)
      else
        match spaces[parent]? with
        | none => (.error .fault, spaces)
        | some parentNs =>
          let (ret, uidMap) := mapWrite call ns.uidMap parentNs.uidMap
          (ret, spaces.set place { ns with uidMap })

inductive Event where
  | create (parent : Nat) (owner : U32) (granted : Bool)
  | write (place seqNs : Nat) (call : Call)

def step (spaces : List UserNamespace) : Event → List UserNamespace
  | .create parent owner granted => createUserNs spaces parent owner granted
  | .write place seqNs call => (procUidMapWrite spaces place seqNs call).2

def run (events : List Event) : List UserNamespace := events.foldl step [initUserNs]

end TinyKernel.Userns
