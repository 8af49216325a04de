import GThread.StackContext

/-! One save of the stack and any number of rollbacks to it. `RestoreContext` may run at any
depth, over a stack that looks nothing like the saved one; its padding puts `CompleteRestore`
below all that it overwrites. -/
namespace GThread

def stackPointer (bottom : Nat) : List Frame → Nat
  | [] => bottom
  | f :: _ => f.sp

def Nested (bottom : Nat) : List Frame → Prop
  | [] => True
  | f :: callers => f.Below (stackPointer bottom callers) ∧ Nested bottom callers

instance Nested.decide (bottom : Nat) : (calls : List Frame) → Decidable (Nested bottom calls)
  | [] => .isTrue trivial
  | f :: callers =>
    have := Nested.decide bottom callers
    inferInstanceAs (Decidable (f.Below (stackPointer bottom callers) ∧ Nested bottom callers))

def Exact (a b : Nat) : Prop := usub a b + b = a

theorem exact_of_le {a b : Nat} (h : b ≤ a) (ha : a < 2^64) : Exact a b := by
  rw [Exact,usub_eq h ha,Nat.sub_add_cancel h]

def Machine.savedTop (m : Machine) : Nat := usub m.bottomOfStack m.stackSize

/-- The machine each time `SaveContext` returns: after the save, and after every rollback to it.
In between the process does with its stack what it likes. -/
inductive Returns (m : Machine) (f : SaveFrames) : Machine → Prop where
  | save : Returns m f (m.saveContext f)
  | rollback {t : Machine} (mem : Nat → Byte) (r : RestoreFrames) : Returns m f t →
      r.Fit { t with mem := mem } →
      Returns m f (({ t with mem := mem }.restoreContext r).afterGetcontext f)

/-- What a rollback of `t` with the frames `r` does to the stack saved by `m.saveContext f`, where
`callers` are the calls `SaveContext` was called from. -/
structure Restored (m : Machine) (f : SaveFrames) (callers : List Frame) (t : Machine)
    (r : RestoreFrames) : Prop where
  below : r.alloca ≤ t.savedTop ∧ r.completeRestore.address < t.savedTop
  inside : ∀ a, r.alloca ≤ a → ¬ (t.savedTop ≤ a ∧ a < t.bottomOfStack) →
    (t.restoreContext r).mem a = scribble t.mem r.sp r.writes a
  save : Exact m.bottomOfStack f.phase2Save.address
  depth : Exact t.bottomOfStack r.restoreContext.address
  padding : usub t.bottomOfStack r.restoreContext.address < t.stackSize →
    Exact t.stackSize (usub t.bottomOfStack r.restoreContext.address)
  top : Exact t.bottomOfStack t.stackSize
  bytes : ∀ a, t.savedTop ≤ a → a < t.bottomOfStack →
    (t.restoreContext r).mem a = (m.saveContext f).mem a
  frames : ∀ c ∈ f.saveContext :: callers, t.savedTop ≤ c.sp ∧ c.address < t.bottomOfStack
  resumes : (t.restoreContext r).resumed = true ∧ (t.restoreContext r).firstTime = false ∧
    (t.restoreContext r).state = f.saveContext.sp
  keeps : (t.restoreContext r).afterGetcontext f = { t.restoreContext r with resumed := false } ∧
    (t.restoreContext r).toStackContext = (m.saveContext f).toStackContext

theorem stackPointer_le {bottom : Nat} {calls : List Frame} (h : Nested bottom calls) :
    stackPointer bottom calls ≤ bottom := by
  induction calls with
  | nil => exact le_rfl
  | cons f callers ih =>
    obtain ⟨⟨hsp,haddr⟩,hrest⟩ := h
    exact (hsp.trans haddr.le).trans (ih hrest)

/-- The frames of the callers lie above the stack pointer of the innermost one. -/
theorem nested_frames {bottom : Nat} {calls : List Frame} (h : Nested bottom calls) :
    ∀ c ∈ calls, stackPointer bottom calls ≤ c.sp ∧ c.address < bottom := by
  induction calls with
  | nil => intro c hc; cases hc
  | cons f callers ih =>
    obtain ⟨⟨hsp,haddr⟩,hrest⟩ := h
    refine List.forall_mem_cons.mpr ⟨⟨le_rfl,haddr.trans_le (stackPointer_le hrest)⟩,?_⟩
    intro c hc
    obtain ⟨hlo,hhi⟩ := ih hrest c hc
    exact ⟨(hsp.trans haddr.le).trans hlo,hhi⟩

theorem returns_holds {m t : Machine} {f : SaveFrames} (hb : m.bottomOfStack < 2^64)
    (hf : f.Fit m) (h : Returns m f t) :
    t.Holds f.phase2Save.address (m.saveContext f).mem ∧
      t.toStackContext = (m.saveContext f).toStackContext := by
  induction h with
  | save => exact ⟨saveContext_holds hb hf,rfl⟩
  | @rollback t mem r _ _ ih =>
    obtain ⟨hholds,hsame⟩ := ih
    have hmem : Machine.Holds { t with mem := mem } f.phase2Save.address (m.saveContext f).mem :=
      ⟨hholds.firstTime,hholds.size,hholds.bytes⟩
    have hnext := restoreContext_holds hmem r
    rw [afterGetcontext_of_holds hnext f]
    exact ⟨⟨hnext.firstTime,hnext.size,hnext.bytes⟩,hsame⟩

theorem Machine.Holds.savedTop {m : Machine} {top : Nat} {mem : Nat → Byte} (h : m.Holds top mem)
    (hb : m.bottomOfStack < 2^64) : m.savedTop = top := by
  have hsize := h.size
  rw [Machine.savedTop,usub_eq (by omega) hb]
  omega

theorem restoreContext_outside {m : Machine} {top : Nat} {mem : Nat → Byte} (h : m.Holds top mem)
    (hb : m.bottomOfStack < 2^64) {r : RestoreFrames} {a : Nat} (hlo : r.alloca ≤ a)
    (hout : ¬ (top ≤ a ∧ a < m.bottomOfStack)) :
    (m.restoreContext r).mem a = scribble m.mem r.sp r.writes a := by
  have hsize := h.size
  have hdst : usub m.bottomOfStack m.stackSize = top := h.savedTop hb
  simp only [Machine.restoreContext,Machine.completeRestore,scribble_of_le hlo,hdst]
  exact if_neg (by omega)

/-- A rollback of a machine that holds the copy, whatever its stack is now. -/
theorem Machine.Holds.restored {m t : Machine} {f : SaveFrames} {callers : List Frame}
    {r : RestoreFrames} (h : t.Holds f.phase2Save.address (m.saveContext f).mem)
    (same : t.toStackContext = (m.saveContext f).toStackContext) (hb : m.bottomOfStack < 2^64)
    (hf : f.Fit m) (hcallers : Nested m.bottomOfStack callers)
    (hsp : f.sp = stackPointer m.bottomOfStack callers) (hr : r.Fit t) :
    Restored m f callers t r := by
  have hbottom : t.bottomOfStack = m.bottomOfStack :=
    (congrArg StackContext.bottomOfStack same).trans (afterGetcontext_bottom _ f)
  have hb' : t.bottomOfStack < 2^64 := hbottom ▸ hb
  have htop : t.savedTop = f.phase2Save.address := h.savedTop hb'
  have halloca : r.alloca ≤ f.phase2Save.address := h.alloca_le hb' hr
  have hsave := hf.top_lt
  have hsize := h.size
  have hdepth : r.restoreContext.address ≤ t.bottomOfStack := hr.2.1.2.le.trans hr.1
  constructor
  · rw [htop]
    exact ⟨halloca,hr.2.2.2.2.trans_le halloca⟩
  · rw [htop]
    exact fun a hlo hout => restoreContext_outside h hb' hlo hout
  · exact exact_of_le (by omega) hb
  · exact exact_of_le hdepth hb'
  · exact fun hlt => exact_of_le hlt.le (by omega)
  · exact exact_of_le (by omega) hb'
  · rw [htop]
    exact fun a hlo hhi => restoreContext_mem h hb' hr hlo hhi
  · rw [htop,hbottom]
    refine List.forall_mem_cons.mpr ⟨by omega,fun c hc => ?_⟩
    obtain ⟨hlo,hhi⟩ := nested_frames hcallers c hc
    exact ⟨by omega,hhi⟩
  · exact ⟨rfl,h.firstTime,congrArg StackContext.state same⟩
  · exact ⟨afterGetcontext_of_holds (restoreContext_holds h r) f,same⟩

/-- Whenever and however often a process is rolled back to one `SaveContext`, its stack from the
saved top to the bottom, with the frames of `SaveContext` and of all its callers, is restored
by code that runs below it, and `SaveContext` returns without another save. -/
theorem stack_restored (m : Machine) (f : SaveFrames) (callers : List Frame) (t : Machine)
    (mem : Nat → Byte) (r : RestoreFrames) (hb : m.bottomOfStack < 2^64) (hf : f.Fit m)
    (hcallers : Nested m.bottomOfStack callers)
    (hsp : f.sp = stackPointer m.bottomOfStack callers) (ht : Returns m f t)
    (hr : r.Fit { t with mem := mem }) :
    Restored m f callers { t with mem := mem } r := by
  obtain ⟨hholds,hsame⟩ := returns_holds hb hf ht
  have hmem : Machine.Holds { t with mem := mem } f.phase2Save.address (m.saveContext f).mem :=
    ⟨hholds.firstTime,hholds.size,hholds.bytes⟩
  exact hmem.restored hsame hb hf hcallers hsp hr

def RestoreFrames.deep : RestoreFrames :=
  ⟨64,⟨60,56⟩,56,⟨52,48⟩,fun _ => 3,fun _ => 4⟩

/-- A rollback from the bottom of the stack, and then one from below the saved top. -/
theorem stack_restored_twice : ∃ t,
    Returns (Machine.initStackContext 128 fun _ => 7) SaveFrames.usual t ∧
    Restored (Machine.initStackContext 128 fun _ => 7) SaveFrames.usual [⟨124,120⟩]
      { t with mem := fun _ => 9 } RestoreFrames.deep := by
  have hsave : Returns (Machine.initStackContext 128 fun _ => 7) SaveFrames.usual _ := .save
  have hfirst := hsave.rollback (fun _ => 8)
    (RestoreFrames.usual { Machine.saveContext (Machine.initStackContext 128 fun _ => 7)
      SaveFrames.usual with mem := fun _ => 8 })
    (restoreFrames_usual_fit rfl (by decide))
  exact ⟨_,hfirst,stack_restored _ _ _ _ _ _ (by decide) (by decide) (by decide) rfl hfirst
    (by decide)⟩

end GThread
