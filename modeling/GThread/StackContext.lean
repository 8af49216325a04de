import GThread.Util

/-! The stack of a process and `StackContext` (`stack_context.cc`), which copies it when
`AtomicBegin` is called and puts the copy back after a rollback. Where the frames lie is up to
the compiler: a callee's is below the stack pointer of its caller, and code that runs at a
stack pointer writes what it likes below it. -/
namespace GThread

def usub (a b : Nat) : Nat := (a + (2^64 - b)) % 2^64

theorem usub_eq {a b : Nat} (h : b ≤ a) (ha : a < 2^64) : usub a b = a - b := by
  unfold usub
  omega

/-- A call: its `__builtin_frame_address(0)`, and its own stack pointer. -/
structure Frame where
  address : Nat
  sp : Nat

def Frame.Below (f : Frame) (sp : Nat) : Prop := f.sp ≤ f.address ∧ f.address < sp

instance (f : Frame) (sp : Nat) : Decidable (f.Below sp) := inferInstanceAs (Decidable (_ ∧ _))

/-- Of `state_` the stack pointer; the program counter in it is always that of `SaveContext`
after its `getcontext`. `stack` is the buffer that `stack_` points to. -/
structure StackContext where
  state : Nat
  stack : Nat → Byte
  stackSize : Nat
  bottomOfStack : Nat

/-- The stack of a process with the context it saves. `resumed` says that `setcontext` has
brought the process back into `SaveContext`. -/
structure Machine extends StackContext where
  mem : Nat → Byte
  firstTime : Bool
  resumed : Bool

/-- `InitStackContext` on a stack that ends at `bottom`. -/
def Machine.initStackContext (bottom : Nat) (mem : Nat → Byte) : Machine where
  state := 0
  stack := fun _ => 0
  stackSize := 0
  bottomOfStack := bottom
  mem := mem
  firstTime := true
  resumed := false

/-- The memory once code at stack pointer `sp` has written `writes` below it. -/
def scribble (mem : Nat → Byte) (sp : Nat) (writes : Nat → Byte) : Nat → Byte :=
  fun a => if a < sp then writes a else mem a

theorem scribble_of_le {mem writes : Nat → Byte} {sp a : Nat} (h : sp ≤ a) :
    scribble mem sp writes a = mem a := if_neg (not_lt.mpr h)

/-- The calls below `AtomicBegin`, which is at stack pointer `sp`, and what they leave on the
stack. -/
structure SaveFrames where
  sp : Nat
  saveContext : Frame
  phase2Save : Frame
  completeSave : Frame
  writes : Nat → Byte

def SaveFrames.Fit (f : SaveFrames) (m : Machine) : Prop :=
  f.sp ≤ m.bottomOfStack ∧ f.saveContext.Below f.sp ∧ f.phase2Save.Below f.saveContext.sp ∧
    f.completeSave.Below f.phase2Save.sp

instance (f : SaveFrames) (m : Machine) : Decidable (f.Fit m) :=
  inferInstanceAs (Decidable (_ ∧ _))

/-- `CompleteSave`, where its `mmap` succeeds. The rest of the last page of the buffer is zero. -/
def Machine.completeSave (m : Machine) (topOfStack : Nat) : Machine :=
  let stackSize := usub m.bottomOfStack topOfStack
  { m with
    stackSize := stackSize
    stack := fun i => if i < stackSize then m.mem (topOfStack + i) else 0 }

def Machine.phase2Save (m : Machine) (f : SaveFrames) : Machine :=
  { m with firstTime := false }.completeSave f.phase2Save.address

/-- `SaveContext` once `getcontext` has returned, from its call or through `setcontext`. -/
def Machine.afterGetcontext (m : Machine) (f : SaveFrames) : Machine :=
  let m := { m with resumed := false }
  if m.firstTime then m.phase2Save f else m

def Machine.saveContext (m : Machine) (f : SaveFrames) : Machine :=
  { m with
    mem := scribble m.mem f.sp f.writes
    firstTime := true
    state := f.saveContext.sp }.afterGetcontext f

/-- The calls below `AtomicAbort`, which is at stack pointer `sp`; where `alloca` has put the
stack pointer of `RestoreContext`; and what is left on the stack before and after the copy. -/
structure RestoreFrames where
  sp : Nat
  restoreContext : Frame
  alloca : Nat
  completeRestore : Frame
  writes : Nat → Byte
  rest : Nat → Byte

/-- What `RestoreContext` passes to `alloca`, if it calls it. -/
def Machine.padding (m : Machine) (frameAddress : Nat) : Option Nat :=
  if usub m.bottomOfStack frameAddress < m.stackSize then
    some (usub m.stackSize (usub m.bottomOfStack frameAddress))
  else none

def RestoreFrames.Padded (r : RestoreFrames) : Option Nat → Prop
  | some size => r.alloca + size ≤ r.restoreContext.sp
  | none => r.alloca = r.restoreContext.sp

instance (r : RestoreFrames) : (size : Option Nat) → Decidable (r.Padded size)
  | some _ => inferInstanceAs (Decidable (_ ≤ _))
  | none => inferInstanceAs (Decidable (_ = _))

def RestoreFrames.Fit (r : RestoreFrames) (m : Machine) : Prop :=
  r.sp ≤ m.bottomOfStack ∧ r.restoreContext.Below r.sp ∧
    r.Padded (m.padding r.restoreContext.address) ∧ r.completeRestore.Below r.alloca

instance (r : RestoreFrames) (m : Machine) : Decidable (r.Fit m) :=
  inferInstanceAs (Decidable (_ ∧ _))

/-- `CompleteRestore`. What runs below its caller's stack pointer goes on writing there after
the `memcpy`, up to the `setcontext`, which sets registers only. -/
def Machine.completeRestore (m : Machine) (r : RestoreFrames) : Machine :=
  let dst := usub m.bottomOfStack m.stackSize
  let copied := fun a => if dst ≤ a ∧ a < dst + m.stackSize then m.stack (a - dst) else m.mem a
  { m with
    mem := scribble copied r.alloca r.rest
    resumed := true }

def Machine.restoreContext (m : Machine) (r : RestoreFrames) : Machine :=
  { m with mem := scribble m.mem r.sp r.writes }.completeRestore r

/-- The copy is that of `mem` from `top` on, and the flag outside the stack says that it has
been taken. -/
structure Machine.Holds (m : Machine) (top : Nat) (mem : Nat → Byte) : Prop where
  firstTime : m.firstTime = false
  size : m.stackSize + top = m.bottomOfStack
  bytes : ∀ a, top ≤ a → a < m.bottomOfStack → m.stack (a - top) = mem a

theorem SaveFrames.Fit.top_lt {f : SaveFrames} {m : Machine} (h : f.Fit m) :
    f.phase2Save.address < f.saveContext.sp ∧ f.saveContext.sp ≤ f.saveContext.address ∧
      f.saveContext.address < f.sp ∧ f.sp ≤ m.bottomOfStack :=
  ⟨h.2.2.1.2,h.2.1.1,h.2.1.2,h.1⟩

theorem saveContext_holds {m : Machine} (hb : m.bottomOfStack < 2^64) {f : SaveFrames}
    (h : f.Fit m) :
    (m.saveContext f).Holds f.phase2Save.address (scribble m.mem f.sp f.writes) := by
  have htop := h.top_lt
  have hle : f.phase2Save.address ≤ m.bottomOfStack := by omega
  have hsize : usub m.bottomOfStack f.phase2Save.address =
      m.bottomOfStack - f.phase2Save.address := usub_eq hle hb
  refine ⟨rfl,?_,?_⟩
  · show usub m.bottomOfStack f.phase2Save.address + _ = _
    rw [hsize,Nat.sub_add_cancel hle]
    rfl
  · intro a hlo hhi
    show (if a - f.phase2Save.address < usub m.bottomOfStack f.phase2Save.address then
      scribble m.mem f.sp f.writes (f.phase2Save.address + (a - f.phase2Save.address)) else 0) = _
    have hin : a - f.phase2Save.address < m.bottomOfStack - f.phase2Save.address :=
      Nat.sub_lt_sub_right hlo hhi
    rw [hsize,if_pos hin,Nat.add_sub_cancel' hlo]

theorem afterGetcontext_of_holds {m : Machine} {top : Nat} {mem : Nat → Byte}
    (h : m.Holds top mem) (f : SaveFrames) :
    m.afterGetcontext f = { m with resumed := false } := by
  unfold Machine.afterGetcontext
  simp [h.firstTime]

theorem afterGetcontext_bottom (m : Machine) (f : SaveFrames) :
    (m.afterGetcontext f).bottomOfStack = m.bottomOfStack := by
  unfold Machine.afterGetcontext
  dsimp only
  split <;> rfl

/-- However deep the stack is, `CompleteRestore` runs below what it is going to overwrite. -/
theorem Machine.Holds.alloca_le {m : Machine} {top : Nat} {mem : Nat → Byte}
    (h : m.Holds top mem) (hb : m.bottomOfStack < 2^64) {r : RestoreFrames} (hr : r.Fit m) :
    r.alloca ≤ top := by
  obtain ⟨hsp,⟨hframe,hbelow⟩,hpad,-⟩ := hr
  have hsize := h.size
  have hdepth : usub m.bottomOfStack r.restoreContext.address =
      m.bottomOfStack - r.restoreContext.address := usub_eq (by omega) hb
  unfold Machine.padding at hpad
  rw [hdepth] at hpad
  split at hpad
  · rename_i hlt
    have hsub : usub m.stackSize (m.bottomOfStack - r.restoreContext.address) =
        m.stackSize - (m.bottomOfStack - r.restoreContext.address) :=
      usub_eq (by omega) (by omega)
    rw [hsub] at hpad
    simp only [RestoreFrames.Padded] at hpad
    omega
  · simp only [RestoreFrames.Padded] at hpad
    omega

theorem restoreContext_mem {m : Machine} {top : Nat} {mem : Nat → Byte} (h : m.Holds top mem)
    (hb : m.bottomOfStack < 2^64) {r : RestoreFrames} (hr : r.Fit m) {a : Nat} (hlo : top ≤ a)
    (hhi : a < m.bottomOfStack) : (m.restoreContext r).mem a = mem a := by
  have hsize := h.size
  have hdst : usub m.bottomOfStack m.stackSize = top := by
    rw [usub_eq (by omega) hb]
    omega
  have hcopied : (m.restoreContext r).mem a = m.stack (a - top) := by
    have hkept : r.alloca ≤ a := (h.alloca_le hb hr).trans hlo
    simp only [Machine.restoreContext,Machine.completeRestore,scribble_of_le hkept,hdst]
    exact if_pos ⟨hlo,by omega⟩
  rw [hcopied]
  exact h.bytes a hlo hhi

theorem restoreContext_holds {m : Machine} {top : Nat} {mem : Nat → Byte} (h : m.Holds top mem)
    (r : RestoreFrames) : (m.restoreContext r).Holds top mem := ⟨h.firstTime,h.size,h.bytes⟩

def SaveFrames.usual : SaveFrames := ⟨120,⟨112,104⟩,⟨96,88⟩,⟨80,72⟩,fun _ => 1⟩

def RestoreFrames.usual (m : Machine) : RestoreFrames :=
  let sp := 127 - (m.stackSize - 1)
  ⟨128,⟨127,127⟩,sp,⟨sp - 1,sp - 1⟩,fun _ => 0,fun _ => 0⟩

theorem restoreFrames_usual_fit {m : Machine} (hb : m.bottomOfStack = 128)
    (hsize : m.stackSize ≤ 32) : (RestoreFrames.usual m).Fit m := by
  refine ⟨hb.ge,⟨le_rfl,Nat.lt_succ_self 127⟩,?_,?_⟩
  · have hdepth : usub m.bottomOfStack 127 = 1 := by rw [hb]; decide
    simp only [RestoreFrames.usual,Machine.padding,hdepth]
    split
    · rename_i hlt
      rw [usub_eq (by omega) (by omega)]
      simp only [RestoreFrames.Padded]
      omega
    · simp only [RestoreFrames.Padded]
      omega
  · simp only [RestoreFrames.usual,Frame.Below]
    omega

end GThread
