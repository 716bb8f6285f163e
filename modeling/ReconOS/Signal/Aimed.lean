import ReconOS.Signal.Signal
import Mathlib.Data.Nat.Bitwise

/-! Where a return to user mode goes. -/
namespace ReconOS.Signal

open ReconOS.Lib

/-- Program counter and stack pointer are user addresses, and the flags are ones that a program may
have. -/
structure Aimed (arch : Arch) (ctx : Context) : Prop where
  pc : userRangeOk ctx.pc 1
  sp : userRangeOk ctx.sp 1
  flags : arch.safeFlags ctx.flags = ctx.flags

theorem userRangeOk_iff {addr len : Nat} (some_ : 0 < len) (short : len < u64Size) :
    userRangeOk addr len = true ↔ pageSize ≤ addr ∧ addr + len ≤ userLimit := by
  have small : userLimit < u64Size := by decide
  unfold userRangeOk
  rw [if_neg (by omega)]
  dsimp only
  split
  · rename_i wraps
    refine ⟨fun no => (nomatch no), fun inside => ?_⟩
    rw [Nat.mod_eq_of_lt (by omega)] at wraps
    omega
  · rename_i fits
    have whole : addr + len < u64Size := by
      by_contra long
      have less : (addr + len) % u64Size ≤ addr + len - u64Size := by
        rw [Nat.mod_eq_sub_mod (by omega)]
        exact Nat.mod_le _ _
      omega
    rw [Nat.mod_eq_of_lt whole]
    split
    · exact ⟨fun no => (nomatch no), fun inside => by omega⟩
    · rw [decide_eq_true_eq]
      omega

/-- What is safe stays so. -/
theorem safeFlags_safe (arch : Arch) (flags : Nat) :
    arch.safeFlags (arch.safeFlags flags) = arch.safeFlags flags := by
  apply Nat.eq_of_testBit_eq
  intro i
  cases arch with
  | x86_64 =>
    simp only [Arch.safeFlags, Nat.testBit_or, Nat.testBit_and]
    cases flags.testBit i <;> cases (0x0CD5 : Nat).testBit i <;> cases (0x202 : Nat).testBit i <;> rfl
  | aarch64 =>
    simp only [Arch.safeFlags, Nat.testBit_and]
    cases flags.testBit i <;> cases (0xF0000000 : Nat).testBit i <;> rfl

/-! ## One return -/

/-- A frame that would be gone back by leads to user addresses. -/
def FrameAims (m : Mem) (ctx : Context) : Prop :=
  userRangeOk ctx.sp frameSize → m.load (ctx.sp + 48) = sigFrameMagic →
    userRangeOk (m.load ctx.sp) 1 ∧ userRangeOk (m.load (ctx.sp + 8)) 1

/-- A handler that would be entered is at a user address, the interrupted flags are ones that a
program may have, and the frame is not at the very start of user space with a word below it. -/
def HandlerAims (arch : Arch) (ctx : Context) (handler : Nat) : Prop :=
  userRangeOk handler 1 ∧ arch.safeFlags ctx.flags = ctx.flags ∧
    (arch = .x86_64 → (ctx.sp - frameSize) / 16 * 16 ≠ pageSize)

theorem signalReturn_aimed (arch : Arch) (m : Mem) (ctx : Context) :
    ((signalReturn arch m ctx).1 = .ok → Aimed arch (signalReturn arch m ctx).2) ↔
      FrameAims m ctx := by
  unfold signalReturn FrameAims
  dsimp only
  split
  · rename_i out
    exact ⟨fun _ inside => absurd inside out, fun _ no => (nomatch no)⟩
  · rename_i inside
    split
    · rename_i other
      exact ⟨fun _ _ magic => absurd magic other, fun _ no => (nomatch no)⟩
    · rename_i magic
      constructor
      · intro aimed _ _
        have aimed := aimed rfl
        exact ⟨aimed.pc, aimed.sp⟩
      · intro aims _
        obtain ⟨pc, sp⟩ := aims (Decidable.not_not.1 inside) (Decidable.not_not.1 magic)
        exact ⟨pc, sp, safeFlags_safe arch _⟩

/-- The stack pointer that a handler is entered with. -/
theorem placed_sp {sp : Nat} (aligned : sp % 16 = 0) (inside : userRangeOk sp frameSize) (arch : Arch)
    (m : Mem) (ctx : Context) (restorer : Nat) :
    userRangeOk (arch.placeReturn m ctx sp restorer).2.2 1 ↔ (arch = .x86_64 → sp ≠ pageSize) := by
  obtain ⟨low, high⟩ := (userRangeOk_iff (by decide) (by decide)).1 inside
  have page : pageSize = 4096 := rfl
  have size : frameSize = 56 := rfl
  cases arch with
  | x86_64 =>
    show userRangeOk (sp - 8) 1 = true ↔ _
    rw [userRangeOk_iff (by decide) (by decide)]
    constructor
    · intro within _
      omega
    · intro apart
      have apart := apart rfl
      omega
  | aarch64 =>
    show userRangeOk sp 1 = true ↔ _
    rw [userRangeOk_iff (by decide) (by decide)]
    exact ⟨fun _ no => (nomatch no), fun _ => ⟨low, by omega⟩⟩

theorem enterHandler_aimed (arch : Arch) (m : Mem) (ctx : Context) (sig handler restorer : Nat) :
    (∀ entered ∈ enterHandler arch m ctx sig handler restorer, Aimed arch entered.2) ↔
      ((enterHandler arch m ctx sig handler restorer).isSome → HandlerAims arch ctx handler) := by
  unfold enterHandler
  split
  · exact ⟨fun _ no => (nomatch no), fun _ _ no => (nomatch no)⟩
  · dsimp only
    split
    · exact ⟨fun _ no => (nomatch no), fun _ _ no => (nomatch no)⟩
    · rename_i inside
      have inside := Decidable.not_not.1 inside
      have sp := placed_sp (Nat.mul_mod_left _ 16) inside arch
        (pushFrame m ((ctx.sp - frameSize) / 16 * 16) ctx) ctx restorer
      have flags : (arch.placeReturn (pushFrame m ((ctx.sp - frameSize) / 16 * 16) ctx) ctx
          ((ctx.sp - frameSize) / 16 * 16) restorer).2.1.flags = ctx.flags := by cases arch <;> rfl
      constructor
      · intro aimed _
        have aimed := aimed _ rfl
        refine ⟨aimed.pc, ?_, sp.1 aimed.sp⟩
        rw [← flags]
        exact aimed.flags
      · rintro aims entered ⟨⟩
        obtain ⟨pc, safe, apart⟩ := aims rfl
        refine ⟨pc, sp.2 apart, ?_⟩
        show arch.safeFlags (Context.flags _) = Context.flags _
        rw [flags, safe]

/-- What a return of this thread would be made with is aimed at user space. -/
def State.ReturnAims (arch : Arch) (s : State) (t : Thread) (m : Mem) (ctx : Context) : Prop :=
  if t.restoring then FrameAims m ctx
  else ∀ taken ∈ s.taking t, match taken with
    | (_, sig, .handler handler restorer) =>
      (enterHandler arch m ctx sig handler restorer).isSome → HandlerAims arch ctx handler
    | (_, _, .default) | (_, _, .ignore) => True

def State.AllAimed (arch : Arch) (s : State) : Prop := ∀ ctx ∈ s.placed, Aimed arch ctx

theorem onReturn_aimed (arch : Arch) (s : State) (k : Nat) (t : Thread) (m : Mem) (ctx : Context) :
    (s.onReturn arch k t m ctx).2.AllAimed arch ↔ s.AllAimed arch ∧ s.ReturnAims arch t m ctx := by
  unfold State.onReturn State.ReturnAims
  split
  · rw [← signalReturn_aimed arch]
    dsimp only
    split
    · rename_i ok
      simp [State.AllAimed, State.setThread, ok, and_comm]
    · rename_i refused
      simp [State.AllAimed, State.setThread, refused]
  · cases found : s.taking t with
    | none => simp
    | some taken =>
      obtain ⟨n, sig, what⟩ := taken
      dsimp only
      cases what with
      | default =>
        dsimp only
        split
        · simp [State.AllAimed, State.take]
        · simp [State.AllAimed, State.take, State.threadEnded, State.setThread]
      | ignore => simp [State.AllAimed, State.take]
      | handler handler restorer =>
        have entered := enterHandler_aimed arch m ctx sig handler restorer
        cases enters : enterHandler arch m ctx sig handler restorer with
        | none => simp [State.AllAimed, State.take, enters]
        | some made =>
          obtain ⟨m', ctx'⟩ := made
          have one : Aimed arch ctx' ↔ HandlerAims arch ctx handler := by simpa [enters] using entered
          simp [State.AllAimed, State.take, enters, one, and_comm]

/-! ## Every return -/

/-- A return of a thread is aimed at user space; nothing else makes one. -/
def State.Aims (arch : Arch) (s : State) : Move → Prop
  | .onReturn k m ctx => ∀ t ∈ s.threads[k]?, s.ReturnAims arch t m ctx
  | .create | .attach _ | .threadEnded _ _ | .threadReaped _ | .reap _ | .send _ _
  | .setAction _ _ _ _ _ | .setMask _ _ | .sigreturn _ => True

theorem step_aimed (arch : Arch) (s : State) (move : Move) :
    (s.step arch move).AllAimed arch ↔ s.AllAimed arch ∧ s.Aims arch move := by
  have same : ∀ s' : State, s'.placed = s.placed → (s'.AllAimed arch ↔ s.AllAimed arch ∧ True) := by
    intro s' placed
    unfold State.AllAimed
    rw [placed, and_true]
  have thread : ∀ (k : Nat) (f : Thread → State), (∀ t, (f t).placed = s.placed) →
      ((s.byThread k f).AllAimed arch ↔ s.AllAimed arch ∧ True) := by
    intro k f each
    apply same
    unfold State.byThread
    split
    · rfl
    · exact each _
  cases move with
  | create =>
    apply same
    unfold State.step
    dsimp only
    split
    · rfl
    · rfl
  | attach i => exact same _ rfl
  | threadEnded k code => exact thread k _ fun t => rfl
  | threadReaped i => exact same _ rfl
  | reap id => exact same _ rfl
  | send id sig =>
    apply same
    show (s.send id sig).2.placed = s.placed
    unfold State.send
    split
    · rfl
    · split
      · rfl
      · rfl
  | setAction k sig what handler restorer =>
    refine thread k _ fun t => ?_
    unfold State.setAction
    split
    · rfl
    · split
      · rfl
      · split
        · rfl
        · split
          · rfl
          · rfl
  | setMask k mask => exact thread k _ fun t => rfl
  | sigreturn k => exact thread k _ fun t => rfl
  | onReturn k m ctx =>
    show (s.byThread k _).AllAimed arch ↔ s.AllAimed arch ∧ ∀ t ∈ s.threads[k]?, _
    unfold State.byThread
    split
    · rename_i none_
      rw [none_]
      exact ⟨fun aimed => ⟨aimed, fun t mem => nomatch mem⟩, fun both => both.1⟩
    · rename_i t found
      rw [found, onReturn_aimed]
      simp

/-- Every context that is made in a run is aimed at user space exactly where each return in it is:
a frame gone back by leads to user addresses, a handler entered is at one and its interrupted flags
are ones a program may have. -/
theorem returns_aimed (arch : Arch) (moves : List Move) :
    (run (State.step arch) .boot moves).AllAimed arch ↔
      Allows (State.step arch) (State.Aims arch) .boot moves := by
  rw [run_iff (step_aimed arch)]
  exact ⟨fun both => both.2, fun aims => ⟨fun _ mem => (nomatch mem), aims⟩⟩

/-- An action that is none of the three, with a handler in the kernel. -/
theorem return_into_kernel : ¬∀ (arch : Arch) (moves : List Move),
    (run (State.step arch) .boot moves).AllAimed arch := by
  intro always
  have aimed := always .x86_64 [.create, .attach ⟨0, by decide⟩,
    .setAction 0 15 3 0xFFFFFFFF80000000 0, .send 1 15,
    .onReturn 0 (fun _ => 0) ⟨0x400000, 0x7FF000, 0x202, 0, 0, 0, 0⟩]
    ⟨0xFFFFFFFF80000000, 0x7FEFB8, 0x202, 15, 0, 0, 0⟩ (by decide +kernel)
  exact absurd aimed.pc (by decide)

end ReconOS.Signal
