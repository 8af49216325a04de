import GThread.StackContext
import GThread.Library.Hex
import Mathlib.Data.List.Infix
import Mathlib.Data.List.TakeWhile

/-! `GetStackBottom` (`stack_context.cc`): the text of `/proc/self/maps` is searched for the stack,
whose bottom is the end of the mapping. -/
namespace GThread
open Hex

def getlines : List Char → List (List Char)
  | [] => []
  | c :: cs =>
    if c = '\n' then [c] :: getlines cs
    else
      match getlines cs with
      | [] => [[c]]
      | line :: lines => (c :: line) :: lines

def cstring (buffer : List Char) : List Char := buffer.takeWhile fun c => c.toNat ≠ 0

def isspace (c : Char) : Bool := c = ' ' ∨ 9 ≤ c.toNat ∧ c.toNat ≤ 13

/-- The prefix of a number in base 16 counts as one digit. -/
def skipBase : List Char → List Char
  | '0' :: 'x' :: cs => '0' :: cs
  | '0' :: 'X' :: cs => '0' :: cs
  | cs => cs

def strtoul (negative : Bool) (v : Nat) : Nat :=
  if 2^64 ≤ v then 2^64 - 1 else if negative then (2^64 - v) % 2^64 else v

def scanDigits (negative : Bool) (cs : List Char) : Option (Nat × List Char) :=
  let cs := skipBase cs
  let digits := cs.takeWhile isHex
  if digits = [] then none else some (strtoul negative (ofHex digits 0),cs.dropWhile isHex)

/-- The conversion `%p` of `sscanf`: the pointer and what follows it. -/
def scanPointer (cs : List Char) : Option (Nat × List Char) :=
  match cs.dropWhile isspace with
  | '-' :: cs => scanDigits true cs
  | '+' :: cs => scanDigits false cs
  | '(' :: n :: i :: l :: ')' :: cs =>
    if [n,i,l].map Char.toLower = ['n','i','l'] then some (0,cs) else none
  | cs => scanDigits false cs

/-- `sscanf(line, "%p-%p", &beginning, &end)`, where it returns 2. -/
def scanRange (line : List Char) : Option (Nat × Nat) :=
  match scanPointer line with
  | some (beginning,'-' :: cs) => (scanPointer cs).map fun p => (beginning,p.1)
  | _ => none

def stackName : List Char := ['[','s','t','a','c','k',']']

def endsInStack (line : List Char) : Bool :=
  8 ≤ line.length ∧ line.drop (line.length - 8) = stackName ++ ['\n']

/-- `GetStackBottom`; without a stack the process exits. -/
def getStackBottom (maps : List Char) : Option Nat :=
  (getlines maps).findSome? fun line =>
    if endsInStack (cstring line) then (scanRange (cstring line)).map Prod.snd else none

def initStackContext (maps : List Char) (mem : Nat → Byte) : Option Machine :=
  (getStackBottom maps).map fun bottom => .initStackContext bottom mem

/-- A line of `/proc/self/maps`: a range of addresses and, behind a blank, the protection, the
file and its name. -/
structure MapsEntry where
  beginning : Nat
  stop : Nat
  rest : List Char
  beginning_lt : beginning < 2^64
  stop_lt : stop < 2^64
  rest_text : ∀ c ∈ rest, c ≠ '\n' ∧ c.toNat ≠ 0

/-- The range is written with at least 8 digits. -/
def MapsEntry.text (m : MapsEntry) : List Char :=
  toHex 8 m.beginning ++ '-' :: (toHex 8 m.stop ++ ' ' :: m.rest)

def MapsEntry.line (m : MapsEntry) : List Char := m.text ++ ['\n']

def MapsEntry.isStack (m : MapsEntry) : Bool := stackName.isSuffixOf m.rest

section Text
variable {c : Char} {cs : List Char}

theorem le_toNat_of_isHex (h : isHex c = true) : 48 ≤ c.toNat := by
  simp only [isHex,Bool.or_eq_true,Bool.and_eq_true,decide_eq_true_eq,Char.le_def,
    UInt32.le_iff_toNat_le] at h
  have h' : '0'.val.toNat ≤ c.val.toNat := by
    obtain (⟨h,-⟩ | ⟨h,-⟩) | ⟨h,-⟩ := h
    · exact h
    · exact le_trans (by decide) h
    · exact le_trans (by decide) h
  exact h'

theorem isspace_of_isHex (h : isHex c = true) : isspace c = false := by
  have hle := le_toNat_of_isHex h
  simp only [isspace,decide_eq_false_iff_not]
  rintro (rfl | ⟨-,hlt⟩)
  · exact absurd h (by decide)
  · omega

theorem skipBase_digits {ds : List Char} (hds : ∀ d ∈ ds, isHex d = true) (hne : ds ≠ [])
    (hc : c ≠ 'x' ∧ c ≠ 'X') : skipBase (ds ++ c :: cs) = ds ++ c :: cs := by
  obtain ⟨d,ds,rfl⟩ := List.exists_cons_of_ne_nil hne
  have second : ∀ x xs, ds ++ c :: cs = x :: xs → x ≠ 'x' ∧ x ≠ 'X' := by
    intro x xs heq
    cases ds with
    | nil =>
      obtain ⟨rfl,-⟩ := List.cons.inj heq
      exact hc
    | cons e ds =>
      obtain ⟨rfl,-⟩ := List.cons.inj heq
      have hhex := hds e (by simp)
      constructor <;> (rintro rfl; exact absurd hhex (by decide))
  unfold skipBase
  split
  · rename_i heq
    exact absurd rfl (second _ _ (List.cons.inj heq).2).1
  · rename_i heq
    exact absurd rfl (second _ _ (List.cons.inj heq).2).2
  · rfl

theorem scanPointer_toHex {w n : Nat} (cs : List Char) (hn : n < 2^64)
    (hc : isHex c = false ∧ c ≠ 'x' ∧ c ≠ 'X') :
    scanPointer (toHex w n ++ c :: cs) = some (n,c :: cs) := by
  have hhex := isHex_toHex w n
  have hdigits : scanDigits false (toHex w n ++ c :: cs) = some (n,c :: cs) := by
    simp only [scanDigits,skipBase_digits hhex (toHex_ne_nil w n) hc.2]
    rw [List.takeWhile_append_of_pos hhex,List.dropWhile_append_of_pos hhex,
      List.takeWhile_cons_of_neg (by simp [hc.1]),List.dropWhile_cons_of_neg (by simp [hc.1]),
      List.append_nil,if_neg (toHex_ne_nil w n),ofHex_toHex]
    rw [strtoul,if_neg (not_le.mpr hn),if_neg Bool.false_ne_true]
  obtain ⟨d,ds,hd⟩ := List.exists_cons_of_ne_nil (toHex_ne_nil w n)
  have hfirst : isHex d = true := hhex d (by simp [hd])
  rw [hd,List.cons_append] at hdigits ⊢
  unfold scanPointer
  rw [List.dropWhile_cons_of_neg (by simp [isspace_of_isHex hfirst])]
  split
  · rename_i heq
    obtain ⟨rfl,-⟩ := List.cons.inj heq
    exact absurd hfirst (by decide)
  · rename_i heq
    obtain ⟨rfl,-⟩ := List.cons.inj heq
    exact absurd hfirst (by decide)
  · rename_i heq
    obtain ⟨rfl,-⟩ := List.cons.inj heq
    exact absurd hfirst (by decide)
  · exact hdigits

end Text

theorem getlines_append {text : List Char} (h : '\n' ∉ text) (cs : List Char) :
    getlines (text ++ '\n' :: cs) = (text ++ ['\n']) :: getlines cs := by
  induction text with
  | nil => simp [getlines]
  | cons c text ih =>
    obtain ⟨hc,htext⟩ := not_or.mp (mt List.mem_cons.mpr h)
    rw [List.cons_append,getlines,if_neg (Ne.symm hc),ih htext]
    rfl

theorem suffix_behind {α : Type*} {s l r : List α} {a : α} (ha : a ∉ s) :
    s <:+ l ++ a :: r ↔ s <:+ r := by
  refine ⟨fun h => ?_,fun h => (h.trans (List.suffix_cons a r)).trans (List.suffix_append l _)⟩
  obtain hs | hs := List.suffix_or_suffix_of_suffix h (List.suffix_append l (a :: r))
  · obtain rfl | hs := List.suffix_cons_iff.mp hs
    · exact absurd List.mem_cons_self ha
    · exact hs
  · exact absurd (hs.mem List.mem_cons_self) ha

theorem endsInStack_iff (line : List Char) :
    endsInStack line = true ↔ stackName ++ ['\n'] <:+ line := by
  rw [List.suffix_iff_eq_drop]
  have hlen : (stackName ++ ['\n']).length = 8 := rfl
  simp only [endsInStack,decide_eq_true_eq,hlen]
  constructor
  · exact fun h => h.2.symm
  · intro h
    refine ⟨?_,h.symm⟩
    have := congrArg List.length h
    rw [hlen,List.length_drop] at this
    omega

namespace MapsEntry

theorem text_chars (m : MapsEntry) : ∀ c ∈ m.text, c ≠ '\n' ∧ c.toNat ≠ 0 := by
  have hex {w n : Nat} {c : Char} (hc : c ∈ toHex w n) : c ≠ '\n' ∧ c.toNat ≠ 0 := by
    have hle := le_toNat_of_isHex (isHex_toHex w n c hc)
    refine ⟨?_,by omega⟩
    rintro rfl
    exact absurd hle (by decide)
  intro c hc
  simp only [text,List.mem_append,List.mem_cons] at hc
  obtain hc | rfl | hc | rfl | hc := hc
  · exact hex hc
  · decide
  · exact hex hc
  · decide
  · exact m.rest_text c hc

theorem getlines_flatMap (ms : List MapsEntry) : getlines (ms.flatMap line) = ms.map line := by
  induction ms with
  | nil => rfl
  | cons m ms ih =>
    have hline : m.line ++ ms.flatMap line = m.text ++ '\n' :: ms.flatMap line := by simp [line]
    rw [List.flatMap_cons,hline,getlines_append fun h => (m.text_chars _ h).1 rfl,ih]
    rfl

theorem cstring_line (m : MapsEntry) : cstring m.line = m.line := by
  refine List.takeWhile_eq_self_iff.mpr fun c hc => decide_eq_true ?_
  obtain hc | hc := List.mem_append.mp hc
  · exact (m.text_chars c hc).2
  · rw [List.mem_singleton.mp hc]
    decide

theorem scanRange_line (m : MapsEntry) : scanRange m.line = some (m.beginning,m.stop) := by
  have hline : m.line =
      toHex 8 m.beginning ++ '-' :: (toHex 8 m.stop ++ ' ' :: (m.rest ++ ['\n'])) := by
    simp [line,text]
  have hfirst := scanPointer_toHex (w := 8) (c := '-')
    (toHex 8 m.stop ++ ' ' :: (m.rest ++ ['\n'])) m.beginning_lt (by decide)
  have hsecond := scanPointer_toHex (w := 8) (c := ' ') (m.rest ++ ['\n']) m.stop_lt
    (by decide)
  rw [hline,scanRange,hfirst]
  simp only [hsecond,Option.map_some]

theorem endsInStack_line (m : MapsEntry) : endsInStack m.line = m.isStack := by
  rw [Bool.eq_iff_iff,endsInStack_iff,isStack,List.isSuffixOf_iff_suffix]
  have htext : m.text = (toHex 8 m.beginning ++ '-' :: toHex 8 m.stop) ++ ' ' :: m.rest := by
    simp [text]
  rw [line,List.suffix_append_self_iff,htext]
  exact suffix_behind (by decide)

end MapsEntry

/-- Whatever is mapped, the stack of the process ends where the first mapping ends whose name is
that of the stack or ends like it. -/
theorem initStackContext_maps (ms : List MapsEntry) (mem : Nat → Byte) :
    initStackContext (ms.flatMap MapsEntry.line) mem =
      (ms.find? MapsEntry.isStack).map fun m => .initStackContext m.stop mem := by
  have hbottom : getStackBottom (ms.flatMap MapsEntry.line) =
      (ms.find? MapsEntry.isStack).map MapsEntry.stop := by
    unfold getStackBottom
    rw [MapsEntry.getlines_flatMap,List.findSome?_map]
    induction ms with
    | nil => rfl
    | cons m ms ih =>
      simp only [List.findSome?_cons,List.find?_cons,Function.comp_apply,m.cstring_line,
        m.endsInStack_line,m.scanRange_line]
      cases m.isStack with
      | true => rfl
      | false => exact ih
  rw [initStackContext,hbottom,Option.map_map]
  rfl

def MapsEntry.ofString (beginning stop : Nat) (rest : String)
    (h : beginning < 2^64 ∧ stop < 2^64 ∧
      rest.toList.all (fun c => c ≠ '\n' ∧ c.toNat ≠ 0) = true) : MapsEntry :=
  ⟨beginning,stop,rest.toList,h.1,h.2.1,by simpa using h.2.2⟩

/-- The heap, the stack and, behind it, the page of the system calls. -/
def linuxMaps : List MapsEntry :=
  [.ofString 0x603000 0x624000 "rw-p 00000000 00:00 0                  [heap]" (by decide),
    .ofString 0x7ffc1a293000 0x7ffc1a2b4000 "rw-p 00000000 00:00 0          [stack]" (by decide),
    .ofString 0xffffffffff600000 0xffffffffff601000 "r-xp 00000000 00:00 0  [vsyscall]"
      (by decide)]

example : (linuxMaps.head?.map MapsEntry.line) =
    some "00603000-00624000 rw-p 00000000 00:00 0                  [heap]\n".toList := by
  decide +kernel

theorem initStackContext_linux :
    initStackContext (linuxMaps.flatMap MapsEntry.line) (fun _ => 0) =
      some (.initStackContext 0x7ffc1a2b4000 fun _ => 0) := by
  have hstack : (linuxMaps.find? MapsEntry.isStack).map MapsEntry.stop =
      some 0x7ffc1a2b4000 := by decide +kernel
  obtain ⟨m,hm,hstop⟩ := Option.map_eq_some_iff.mp hstack
  rw [initStackContext_maps,hm,Option.map_some,hstop]

end GThread
