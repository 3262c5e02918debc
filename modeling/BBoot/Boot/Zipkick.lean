import BBoot.Boot.AosList
import BBoot.Zip.Reader

/-!
# The AmigaOS loader

`boot_aos_zipkick` (`boot_aos.c`) finds the Kicklayout in the archive, extracts
it behind the archive and parses it in place: each line is cut off with a NUL,
and the `EXEC` and `MODULE` lines of the chosen section load a file each. All
of it is in one flat memory; the ranges it uses are asked for through
`brd.claim`.

The trace holds the reads of the zip functions, the answers of
`zip_file_extract`, the claims with what they are for (`Request`), and the
writes. `store r a` marks the point from which on `r` is stored at `a`. Console
output and the line number that only it uses are left out.
-/

namespace BBoot.Boot

open Zip

/-! ## Claims and events -/

/-- `sizeof(module_t)` (`boot_aos.c` lines 17–27). -/
def sizeofModule : Word := 36

/-- `sizeof(list_t)`. -/
def sizeofList : Word := 12

/-- `KICKLIST_ADDR` (line 14). -/
def kicklistAddr : Word := 0xec00000

/-- What a range is claimed for: the Kicklayout with its two terminators, the
    list head, the image of `EXEC`, its `module_t` with the name, a module with
    its `module_t` behind it, and the command line. -/
inductive Request
  | text (kicklayoutLen : Word)
  | list
  | exec (clen : Word)
  | execNode (nlen : Word)
  | module (clen nlen : Word)
  | args (argsLen : Word)
deriving DecidableEq, Repr

/-- The size passed to `brd.claim`. -/
def Request.size : Request → Word
  | text kicklayoutLen => kicklayoutLen + 2
  | list => sizeofList
  | exec clen => clen
  | execNode nlen => roundUp (sizeofModule + nlen + 1) 32
  | module clen nlen => roundUp (roundUp clen 4 + (sizeofModule + nlen + 1)) 32
  | args argsLen => argsLen

/-- What the loader does that can be seen from outside. -/
inductive Event
  | read (log : List Access)
  | claim (r : Request) (addr ret : Word)
  | extract (log : List Access) (x : Option Extracted)
  | store (r : Request) (addr : Word)
  | write (w : Access)
  | getprop (buf len : Word)
deriving DecidableEq, Repr

/-- What the loader uses of `brd_t` (`include/bboot.h` lines 33–43): the answer
    to the `n`-th claim and the address of the `EXEC` image. -/
structure Brd where
  claim : ℕ → (addr size : Word) → Word
  execAddr : Word
  execAddr_ne : execAddr ≠ 0

/-- `no_claim` on amigaone and sam460 with `bi_memsize` (`brd_amigaone.c` lines
    216–219, `brd_sam460.c` lines 436–439). -/
def noClaim (memsize : Word) : Brd where
  claim := fun _ addr size => if addr + size < memsize then addr else 0
  execAddr := 0x1000000
  execAddr_ne := by decide

/-- `of_claim` on pegasos2 (`brd_pegasos2.c` lines 248–251) over the firmware's
    claim service, which answers the address or `(void *)-1`. -/
def ofClaim (grants : ℕ → Bool) : Brd where
  claim := fun n addr _ => if grants n = true then addr else 0xffffffff
  execAddr := 0x400000
  execAddr_ne := by decide

/-- Memory, the zip handle and the number of claims made. -/
structure Machine where
  mem : Mem
  z : ZipT
  claims : ℕ

/-- A program of the loader. -/
abbrev BootM := Traced Machine Event

/-- A program on memory. -/
def onMem {α : Type} (x : MemM α) : BootM α := fun s =>
  ⟨(x s.mem).val, { s with mem := (x s.mem).state }, (x s.mem).log.map Event.write⟩

/-- A zip function that only reads. -/
def onZip {α : Type} (f : Mem → ZipT → Reads α) : BootM α := fun s =>
  ⟨(f s.mem s.z).val, s, [.read (f s.mem s.z).log]⟩

/-- `brd.claim(addr, size)`. -/
def claim (b : Brd) (r : Request) (addr : Word) : BootM Word := fun s =>
  ⟨some (b.claim s.claims addr r.size), { s with claims := s.claims + 1 },
    [.claim r addr (b.claim s.claims addr r.size)]⟩

/-- From here on `r` is stored at `addr`, if `c` holds. -/
def storeIf (c : Bool) (r : Request) (addr : Word) : BootM Unit :=
  if c = true then Traced.emit (.store r addr) else pure ()

/-- `zip_file_find`. -/
def zipFind (name : CStr) : BootM ZStatus := do
  let r ← onZip fun m z => zipFileFind m z name
  Traced.update fun s => { s with z := r.2 }
  pure r.1

/-- Whether an extraction stores anything: it succeeds, or fails after it wrote. -/
def starts (x : Extracted) : Bool := x.status = .zOk ∨ x.out ≠ []

/-- The answer of `zip_file_extract`. -/
def onExtract (puff : Puff) (buffer : Word) : BootM Extracted := fun s =>
  ⟨(zipFileExtract puff s.mem s.z buffer).val, s,
    [.extract (zipFileExtract puff s.mem s.z buffer).log
      (zipFileExtract puff s.mem s.z buffer).val]⟩

/-- `zip_file_extract` into the range claimed for `r`. -/
def zipExtract (puff : Puff) (r : Request) (buffer : Word) : BootM ZStatus := do
  let x ← onExtract puff buffer
  storeIf (starts x) r buffer
  onMem (MemM.write buffer x.out)
  pure x.status

/-! ## Text in memory -/

/-- The bytes of an ASCII string. -/
def ascii (cs : List Char) : List Byte := cs.map fun c => BitVec.ofNat 8 c.toNat

/-- `SPCORTAB` (line 98). -/
def spcOrTab (b : Byte) : Bool := b = 0x20 ∨ b = 0x09

/-- What is skipped at both ends of a line. -/
def blank (b : Byte) : Bool := spcOrTab b ∨ b = 0x0d

/-- The first address from `p` on whose byte meets `stop`. -/
def scan (stop : Byte → Bool) (m : Mem) : ℕ → Word → Option Word
  | 0, _ => none
  | n + 1, p => if stop (m p) = true then some p else scan stop m n (p + 1)

/-- The byte at `p`. -/
def byteAt (p : Word) : MemM Byte := Traced.look fun m => some (m p)

/-- `while (f(*p)) p++;` -/
def skipWhile (f : Byte → Bool) (p : Word) : MemM Word :=
  Traced.look fun m => scan (fun b => !f b) m (2 ^ 32) p

/-- `strchr(p, c)` for `c` other than NUL. -/
def strchr (p : Word) (c : Byte) : MemM (Option Word) :=
  Traced.look fun m =>
    (scan (fun b => b = c ∨ b = 0) m (2 ^ 32) p).map fun q => if m q = c then some q else none

/-- The loop of line 149 from `q` with `n = q - p` steps to go before `p`. -/
def trimFrom (m : Mem) : ℕ → Word → Word
  | 0, q => q
  | n + 1, q => if blank (m q) = true then trimFrom m n (q - 1) else q

/-- `for (q = end - 1; q > p && (SPCORTAB(q) || *q == '\r'); q--);` and `++q`. -/
def trimEnd (p e : Word) : MemM Word :=
  Traced.look fun m => some (trimFrom m (if e - 1 > p then (e - 1 - p).toNat else 0) (e - 1) + 1)

/-- `if (q < end) *q = '\0';` -/
def cutAt (q e : Word) : MemM Unit := if q < e then MemM.write q [0] else pure ()

/-- `KEYWORD(p, str, len)` (line 97) with `len = strlen(str)`. -/
def keyword (str : List Byte) (p : Word) : MemM Bool :=
  Traced.look fun m =>
    some (readBytes m p str.length = str ∧ spcOrTab (m (p + BitVec.ofNat 32 str.length)))

/-- The C string at `p`. -/
def string (p : Word) : MemM CStr := Traced.look fun m => cstrAt? m p

/-- What follows the last `/` of a path. -/
def fileName (path : List Byte) : List Byte := (path.reverse.takeWhile (· ≠ 0x2f)).reverse

/-! ## Modules -/

/-- The fields `add_module` sets (lines 31–40). -/
def fillModule (mod data len name : Word) : MemM Unit := do
  let s ← string name
  MemM.write (mod + sizeofModule) (s.bytes ++ [0])
  MemM.store (mod + 8) (mod + sizeofModule)
  MemM.store (mod + 12) 0
  MemM.storeHalf (mod + 16) 2
  MemM.storeHalf (mod + 18) 3
  MemM.store (mod + 20) (mod + 20)
  MemM.store (mod + 24) (mod + 24)
  MemM.store (mod + 28) data
  MemM.store (mod + 32) len

/-- `add_module` (lines 29–42). -/
def addModule (list mod data len name : Word) : MemM Unit := do
  fillModule mod data len name
  alistAddTail list mod

/-- `if (data) mod->id = 1;` -/
def setExecId (data mod : Word) : MemM Unit :=
  if data = 0 then pure () else MemM.storeHalf (mod + 16) 1

/-- Where the `module_t` stands and the number of bytes it took from `avail`:
    lines 69–73 and 83–91. -/
def placeModule (b : Brd) (data avail clen nlen : Word) : BootM (Option (Word × Word)) :=
  if data = 0 then pure (some (avail + roundUp clen 4, (Request.module clen nlen).size))
  else do
    let mod ← claim b (.execNode nlen) avail
    if mod = 0 then pure none
    else do
      storeIf true (.execNode nlen) mod
      pure (some (mod, (Request.execNode nlen).size))

/-- What the file is claimed for (lines 68–74). -/
def fileRequest (data clen nlen : Word) : Request :=
  if data = 0 then .module clen nlen else .exec clen

/-- `data ?: avail`. -/
def fileAddr (data avail : Word) : Word := if data = 0 then avail else data

/-- Lines 92–94: the module is added where `placeModule` found room for it. -/
def addPlaced (data bin name list : Word) : Option (Word × Word) → BootM Word
  | none => pure 0
  | some (mod, inc) => do
    let len ← onZip zipFileUncompressedSize
    onMem (addModule list mod bin len name)
    onMem (setExecId data mod)
    pure inc

/-- Lines 74–94: room is claimed for the file, and it is extracted and added. -/
def extractModule (b : Brd) (puff : Puff) (data avail clen nlen name list : Word) :
    BootM Word := do
  let bin ← claim b (fileRequest data clen nlen) (fileAddr data avail)
  if bin = 0 then pure 0
  else do
    let extracted ← zipExtract puff (fileRequest data clen nlen) bin
    if extracted = .zError then pure 0
    else placeModule b data avail clen nlen >>= addPlaced data bin name list

/-- `load_module_from_zip` (lines 49–95). -/
def loadModuleFromZip (b : Brd) (puff : Puff) (path data avail list : Word) : BootM Word := do
  let s ← onMem (string path)
  if fileName s.bytes = [] then pure 0
  else do
    let found ← zipFind s
    if found = .zError then pure 0
    else do
      let clen ← onZip zipFileUncompressedSize
      extractModule b puff data avail clen (BitVec.ofNat 32 (fileName s.bytes).length)
        (path + BitVec.ofNat 32 (s.bytes.length - (fileName s.bytes).length)) list

/-! ## The Kicklayout -/

/-- What lines 141–150 find at the start of a line: the end of the text, no end
    of line, an empty line or a comment, or a line at `p`; `next` is the line
    after it. -/
inductive Line
  | stop
  | error
  | skip (next : Word)
  | text (p next : Word)
deriving DecidableEq, Repr

/-- The end of a line that is not empty (lines 147–150), with `e` its newline. -/
def endLine (p e : Word) : MemM Line := do
  MemM.write e [0]
  let q ← trimEnd p e
  cutAt q e
  pure (.text p (e + 1))

/-- Lines 146–150: a line at `p` with its newline at `e`. -/
def finishLine (p e : Word) : MemM Line := do
  let b ← byteAt p
  if b = 0x3b ∨ b = 0x0a then pure (.skip (e + 1)) else endLine p e

/-- Lines 141–150: the line at `p`, stripped and ended by a NUL. -/
def readLine (p : Word) : MemM Line := do
  let b ← byteAt p
  if b = 0 then pure .stop
  else do
    let p ← skipWhile blank p
    match ← strchr p 0x0a with
    | none => pure .error
    | some e => finishLine p e

/-- The variables of the loop: the current line, the number of labels seen, the
    list and the end of the claimed ranges. -/
structure Layout where
  p : Word
  c : ℤ
  kicklist : Word
  avail : Word
deriving DecidableEq, Repr

/-- How a round of the loop ends: with the next one, with a `break`, or with a
    return of `NULL`. -/
inductive Step
  | next (st : Layout)
  | done (st : Layout)
  | fail
deriving DecidableEq, Repr

/-- What the function returns: the list and `*avail_ret`. With a `NULL` list
    nothing is stored to `avail_ret`, and its caller does not read it. -/
structure Kick where
  kicklist : Word
  avail : Word
deriving DecidableEq, Repr

/-- The return of `NULL`. -/
def Kick.null : Kick := ⟨0, 0⟩

/-- `kicklist->l_head->n_succ`. -/
def headSucc (kicklist : Word) : MemM Word := do
  let head ← MemM.load kicklist
  MemM.load head

/-- The chosen `LABEL` line (lines 153–162): the list is claimed and set up. -/
def newList (b : Brd) (st : Layout) : BootM Step := do
  let kicklist ← claim b .list st.avail
  if kicklist = 0 then pure .fail
  else do
    storeIf true .list kicklist
    onMem (alistInit kicklist)
    pure (.next { st with kicklist := kicklist, avail := st.avail + sizeofList })

/-- The file named after a keyword is loaded (lines 171–177 and 181–187). -/
def loadEntry (b : Brd) (puff : Puff) (st : Layout) (p data : Word) : BootM Step := do
  let path ← onMem (skipWhile spcOrTab p)
  let inc ← loadModuleFromZip b puff path data st.avail st.kicklist
  if inc = 0 then pure .fail else pure (.next { st with avail := st.avail + inc })

/-- A line of the chosen section (lines 166–189). -/
def layoutEntry (b : Brd) (puff : Puff) (config : ℤ) (st : Layout) (p : Word) : BootM Step :=
  if st.c ≠ config then pure (.next st)
  else do
    let succ ← onMem (headSucc st.kicklist)
    if succ = 0 then do
      let exec ← onMem (keyword (ascii ['E', 'X', 'E', 'C']) p)
      if exec = true then loadEntry b puff st (p + 4) b.execAddr else pure .fail
    else do
      let module ← onMem (keyword (ascii ['M', 'O', 'D', 'U', 'L', 'E']) p)
      if module = true then loadEntry b puff st (p + 6) 0 else pure .fail

/-- A line that is not empty (lines 151–189). `st.p` is the line after it. -/
def layoutLine (b : Brd) (puff : Puff) (config : ℤ) (st : Layout) (p : Word) : BootM Step := do
  let label ← onMem (keyword (ascii ['L', 'A', 'B', 'E', 'L']) p)
  if label = true then
    if st.c + 1 = config then newList b { st with c := st.c + 1 }
    else if st.c + 1 > config then pure (.done { st with c := st.c + 1 })
    else layoutEntry b puff config { st with c := st.c + 1 } p
  else layoutEntry b puff config st p

/-- The body of the loop (lines 141–189). -/
def layoutBody (b : Brd) (puff : Puff) (config : ℤ) (st : Layout) : BootM Step := do
  let line ← onMem (readLine st.p)
  match line with
  | .stop => pure (.done st)
  | .error => pure .fail
  | .skip next => pure (.next { st with p := next })
  | .text p next => layoutLine b puff config { st with p := next } p

/-- The test after the loop (lines 191–196). -/
def layoutEnd (st : Layout) : BootM Kick :=
  if st.kicklist = 0 then pure .null
  else do
    let succ ← onMem (headSucc st.kicklist)
    if succ = 0 then pure .null else pure ⟨st.kicklist, st.avail⟩

/-- The test of the loop, `p && p - kicklayout < (int)kicklayout_len`. -/
def inText (kicklayout kicklayoutLen p : Word) : Bool :=
  p ≠ 0 ∧ (p - kicklayout).toInt < kicklayoutLen.toInt

/-- The loop (lines 138–190) and the test after it, with at most `fuel` rounds. -/
def layoutLoop (b : Brd) (puff : Puff) (config : ℤ) (kicklayout kicklayoutLen : Word) :
    ℕ → Layout → BootM Kick
  | 0, _ => Traced.diverge
  | fuel + 1, st =>
    if inText kicklayout kicklayoutLen st.p = true then do
      let r ← layoutBody b puff config st
      match r with
      | .next st' => layoutLoop b puff config kicklayout kicklayoutLen fuel st'
      | .done st' => layoutEnd st'
      | .fail => pure .null
    else layoutEnd st

/-- `KICKLAYOUT` (line 15). -/
def kicklayoutName : CStr where
  bytes := ascii ['K', 'i', 'c', 'k', 's', 't', 'a', 'r', 't', '/', 'K', 'i', 'c', 'k', 'l', 'a', 'y',
    'o', 'u', 't']
  noNul := by decide

/-- Lines 115–134: the Kicklayout is extracted behind the archive and gets its
    two terminators. Its address and length are returned. -/
def loadKicklayout (b : Brd) (puff : Puff) (zipdata ziplen : Word) :
    BootM (Option (Word × Word)) := do
  let found ← zipFind kicklayoutName
  if found = .zError then pure none
  else do
    let kicklayoutLen ← onZip zipFileUncompressedSize
    let kicklayout ← claim b (.text kicklayoutLen) (zipdata + ziplen)
    if kicklayout = 0 then pure none
    else do
      let extracted ← zipExtract puff (.text kicklayoutLen) kicklayout
      if extracted = .zError then pure none
      else do
        onMem (MemM.write (kicklayout + kicklayoutLen) [0x0a])
        onMem (MemM.write (kicklayout + kicklayoutLen + 1) [0])
        pure (some (kicklayout, kicklayoutLen))

/-- `if (!ziplen) ziplen = zip_findLen(zipdata, 16 * 1024 * 1024);` -/
def archiveLen (m : Mem) (zipdata ziplen : Word) : Reads Word :=
  if ziplen = 0 then zipFindLen m zipdata 0x1000000 else pure ziplen

/-- `zip_openBuffer` on a fresh handle. -/
def zipOpen (zipdata ziplen : Word) : BootM ZStatus := do
  let r ← onZip fun m _ => zipOpenBuffer m ⟨0, 0, 0, 0⟩ zipdata ziplen
  Traced.update fun s => { s with z := r.2 }
  pure r.1

/-- `boot_aos_zipkick` (lines 100–202). -/
def bootAosZipkick (b : Brd) (puff : Puff) (fuel : ℕ) (zipdata ziplen : Word) (config : ℤ) :
    BootM Kick := do
  let ziplen ← onZip fun m _ => archiveLen m zipdata ziplen
  if zipdata = 0 ∨ ziplen = 0 then pure .null
  else do
    let opened ← zipOpen zipdata ziplen
    if opened = .zError then pure .null
    else do
      match ← loadKicklayout b puff zipdata ziplen with
      | none => pure .null
      | some (kicklayout, kicklayoutLen) =>
        layoutLoop b puff config kicklayout kicklayoutLen fuel ⟨kicklayout, 0, 0, kicklistAddr⟩

/-! ## The command line -/

/-- The command line buffer of `start` (`bboot.c` lines 111–123) on pegasos2:
    `argsLen` is what `prom_getproplen` answered and `getprop` what
    `prom_getprop` will; the result is the buffer, or `0` for the empty string. -/
def startArgs (b : Brd) (getprop : Word → ℤ) (avail : Word) (argsLen : ℤ) : BootM Word :=
  if argsLen > 0 then do
    let buf ← claim b (.args (BitVec.ofInt 32 argsLen)) avail
    if buf = 0 then pure 0
    else do
      Traced.emit (.getprop buf (BitVec.ofInt 32 argsLen))
      if getprop buf = argsLen then pure buf else pure 0
  else pure 0

end BBoot.Boot
