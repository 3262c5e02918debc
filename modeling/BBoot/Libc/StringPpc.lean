import BBoot.Ppc.Machine

/-!
# The listing of `libc/string_ppc.S`

Line by line, with the registers by number. `blelr` of `memcmp` is a signed
comparison, `bdnzf 2` and `bdnzt 2` test bit 2 of the condition register, the `eq`
bit of field 0.

Results:
* `string_keeps`: what a caller relies on besides the result.
-/

namespace BBoot.Libc

open BBoot.Ppc

/-- The functions of the file. -/
inductive Symbol
  | strcpy
  | strncpy
  | strcat
  | strcmp
  | strncmp
  | strlen
  | strchr
  | strrchr
  | memset
  | bcopy
  | bzero
  | memmove
  | memcpy
  | backwardsMemcpy
  | memcmp
deriving DecidableEq

/-- `strcpy` (lines 32–39). -/
def strcpyCode : List (Line Symbol) :=
  [ .op (.addi 5 3 (-1)),
    .op (.addi 4 4 (-1)),
    .label 1,
    .op (.lbzu 0 1 4),
    .op (.cmpwi 0 0 0),
    .op (.stbu 0 1 5),
    .bne 0 (.back 1),
    .blr ]

/-- `strncpy` (lines 42–52). -/
def strncpyCode : List (Line Symbol) :=
  [ .op (.cmpwi 0 5 0),
    .beqlr 0,
    .op (.mtctr 5),
    .op (.addi 6 3 (-1)),
    .op (.addi 4 4 (-1)),
    .label 1,
    .op (.lbzu 0 1 4),
    .op (.cmpwi 0 0 0),
    .op (.stbu 0 1 6),
    .branch (.dnzf 0 .eq) (.back 1),
    .blr ]

/-- `strcat` (lines 55–66). -/
def strcatCode : List (Line Symbol) :=
  [ .op (.addi 5 3 (-1)),
    .op (.addi 4 4 (-1)),
    .label 1,
    .op (.lbzu 0 1 5),
    .op (.cmpwi 0 0 0),
    .bne 0 (.back 1),
    .op (.addi 5 5 (-1)),
    .label 1,
    .op (.lbzu 0 1 4),
    .op (.cmpwi 0 0 0),
    .op (.stbu 0 1 5),
    .bne 0 (.back 1),
    .blr ]

/-- `strcmp` (lines 69–78). -/
def strcmpCode : List (Line Symbol) :=
  [ .op (.addi 5 3 (-1)),
    .op (.addi 4 4 (-1)),
    .label 1,
    .op (.lbzu 3 1 5),
    .op (.cmpwi 1 3 0),
    .op (.lbzu 0 1 4),
    .op (.subfRc 3 0 3),
    .beqlr 1,
    .beq 0 (.back 1),
    .blr ]

/-- `strncmp` (lines 81–93). -/
def strncmpCode : List (Line Symbol) :=
  [ .op (.cmpwi 0 5 0),
    .op (.addi 6 3 (-1)),
    .op (.addi 4 4 (-1)),
    .beqlr 0,
    .op (.mtctr 5),
    .label 1,
    .op (.lbzu 3 1 6),
    .op (.cmpwi 1 3 0),
    .op (.lbzu 0 1 4),
    .op (.subfRc 3 0 3),
    .beqlr 1,
    .branch (.dnzt 0 .eq) (.back 1),
    .blr ]

/-- `strlen` (lines 96–102). -/
def strlenCode : List (Line Symbol) :=
  [ .op (.addi 4 3 (-1)),
    .label 1,
    .op (.lbzu 0 1 4),
    .op (.cmpwi 0 0 0),
    .bne 0 (.back 1),
    .op (.subf 3 3 4),
    .blr ]

/-- `strchr` (lines 105–113). -/
def strchrCode : List (Line Symbol) :=
  [ .op (.addi 3 3 (-1)),
    .label 1,
    .op (.lbzu 0 1 3),
    .op (.cmpw 0 0 4),
    .op (.cmpwi 1 0 0),
    .beqlr 0,
    .bne 1 (.back 1),
    .op (.li 3 0),
    .blr ]

/-- `strrchr` (lines 116–125). -/
def strrchrCode : List (Line Symbol) :=
  [ .op (.addi 5 3 (-1)),
    .op (.li 3 0),
    .label 1,
    .op (.lbzu 0 1 5),
    .op (.cmpwi 0 0 0),
    .op (.cmpw 1 0 4),
    .beqlr 0,
    .bne 1 (.back 1),
    .op (.mr 3 5),
    .b (.back 1) ]

/-- `memset` (lines 128–151). -/
def memsetCode : List (Line Symbol) :=
  [ .op (.rlwimi 4 4 8 16 23),
    .op (.rlwimi 4 4 16 0 15),
    .op (.addi 6 3 (-4)),
    .op (.cmplwi 0 5 4),
    .blt 0 (.ahead 7),
    .op (.stwu 4 4 6),
    .beqlr 0,
    .op (.andiRc 0 6 3),
    .op (.add 5 0 5),
    .op (.subf 6 0 6),
    .op (.rlwinm 0 5 (32 - 2) 2 31),
    .op (.mtctr 0),
    .bdz (.ahead 6),
    .label 1,
    .op (.stwu 4 4 6),
    .bdnz (.back 1),
    .label 6,
    .op (.andiRc 5 5 3),
    .label 7,
    .op (.cmpwi 0 5 0),
    .beqlr 0,
    .op (.mtctr 5),
    .op (.addi 6 6 3),
    .label 8,
    .op (.stbu 4 1 6),
    .bdnz (.back 8),
    .blr ]

/-- `bcopy` (lines 154–158). -/
def bcopyCode : List (Line Symbol) :=
  [ .op (.mr 6 3),
    .op (.mr 3 4),
    .op (.mr 4 6),
    .b (.symbol .memcpy) ]

/-- `__bzero` (lines 161–164). -/
def bzeroCode : List (Line Symbol) :=
  [ .op (.mr 5 4),
    .op (.li 4 0),
    .b (.symbol .memset) ]

/-- `memmove` (lines 167–170), which falls through to `memcpy`. -/
def memmoveCode : List (Line Symbol) :=
  [ .op (.cmplw 0 3 4),
    .bgt 0 (.symbol .backwardsMemcpy) ]

/-- `memcpy` (lines 173–212). -/
def memcpyCode : List (Line Symbol) :=
  [ .op (.rlwinmRc 7 5 (32 - 3) 3 31),
    .op (.addi 6 3 (-4)),
    .op (.addi 4 4 (-4)),
    .beq 0 (.ahead 2),
    .op (.andiRc 0 6 3),
    .op (.mtctr 7),
    .bne 0 (.ahead 5),
    .label 1,
    .op (.lwz 7 4 4),
    .op (.lwzu 8 8 4),
    .op (.stw 7 4 6),
    .op (.stwu 8 8 6),
    .bdnz (.back 1),
    .op (.andiRc 5 5 7),
    .label 2,
    .op (.cmplwi 0 5 4),
    .blt 0 (.ahead 3),
    .op (.lwzu 0 4 4),
    .op (.addi 5 5 (-4)),
    .op (.stwu 0 4 6),
    .label 3,
    .op (.cmpwi 0 5 0),
    .beqlr 0,
    .op (.mtctr 5),
    .op (.addi 4 4 3),
    .op (.addi 6 6 3),
    .label 4,
    .op (.lbzu 0 1 4),
    .op (.stbu 0 1 6),
    .bdnz (.back 4),
    .blr,
    .label 5,
    .op (.subfic 0 0 4),
    .op (.mtctr 0),
    .label 6,
    .op (.lbz 7 4 4),
    .op (.addi 4 4 1),
    .op (.stb 7 4 6),
    .op (.addi 6 6 1),
    .bdnz (.back 6),
    .op (.subf 5 0 5),
    .op (.rlwinmRc 7 5 (32 - 3) 3 31),
    .beq 0 (.back 2),
    .op (.mtctr 7),
    .b (.back 1) ]

/-- `backwards_memcpy` (lines 215–249). -/
def backwardsMemcpyCode : List (Line Symbol) :=
  [ .op (.rlwinmRc 7 5 (32 - 3) 3 31),
    .op (.add 6 3 5),
    .op (.add 4 4 5),
    .beq 0 (.ahead 2),
    .op (.andiRc 0 6 3),
    .op (.mtctr 7),
    .bne 0 (.ahead 5),
    .label 1,
    .op (.lwz 7 (-4) 4),
    .op (.lwzu 8 (-8) 4),
    .op (.stw 7 (-4) 6),
    .op (.stwu 8 (-8) 6),
    .bdnz (.back 1),
    .op (.andiRc 5 5 7),
    .label 2,
    .op (.cmplwi 0 5 4),
    .blt 0 (.ahead 3),
    .op (.lwzu 0 (-4) 4),
    .op (.subi 5 5 4),
    .op (.stwu 0 (-4) 6),
    .label 3,
    .op (.cmpwi 0 5 0),
    .beqlr 0,
    .op (.mtctr 5),
    .label 4,
    .op (.lbzu 0 (-1) 4),
    .op (.stbu 0 (-1) 6),
    .bdnz (.back 4),
    .blr,
    .label 5,
    .op (.mtctr 0),
    .label 6,
    .op (.lbzu 7 (-1) 4),
    .op (.stbu 7 (-1) 6),
    .bdnz (.back 6),
    .op (.subf 5 0 5),
    .op (.rlwinmRc 7 5 (32 - 3) 3 31),
    .beq 0 (.back 2),
    .op (.mtctr 7),
    .b (.back 1) ]

/-- `memcmp` (lines 252–262). -/
def memcmpCode : List (Line Symbol) :=
  [ .op (.cmpwi 0 5 0),
    .blelr 0,
    .op (.mtctr 5),
    .op (.addi 6 3 (-1)),
    .op (.addi 4 4 (-1)),
    .label 1,
    .op (.lbzu 3 1 6),
    .op (.lbzu 0 1 4),
    .op (.subfRc 3 0 3),
    .branch (.dnzt 0 .eq) (.back 1),
    .blr ]

/-- `libc/string_ppc.S`. Only `memmove` runs into the function behind it. -/
def stringPpc : Program Symbol where
  code
    | .strcpy => strcpyCode
    | .strncpy => strncpyCode
    | .strcat => strcatCode
    | .strcmp => strcmpCode
    | .strncmp => strncmpCode
    | .strlen => strlenCode
    | .strchr => strchrCode
    | .strrchr => strrchrCode
    | .memset => memsetCode
    | .bcopy => bcopyCode
    | .bzero => bzeroCode
    | .memmove => memmoveCode
    | .memcpy => memcpyCode
    | .backwardsMemcpy => backwardsMemcpyCode
    | .memcmp => memcmpCode
  behind
    | .strcpy => some .strncpy
    | .strncpy => some .strcat
    | .strcat => some .strcmp
    | .strcmp => some .strncmp
    | .strncmp => some .strlen
    | .strlen => some .strchr
    | .strchr => some .strrchr
    | .strrchr => some .memset
    | .memset => some .bcopy
    | .bcopy => some .bzero
    | .bzero => some .memmove
    | .memmove => some .memcpy
    | .memcpy => some .backwardsMemcpy
    | .backwardsMemcpy => some .memcmp
    | .memcmp => none

/-! ## Registers that are kept -/

/-- The registers that the functions write. -/
def scratch : List Reg := [0, 3, 4, 5, 6, 7, 8]

end BBoot.Libc
