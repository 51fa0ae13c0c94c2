import Xv6.Laws.Vm.Copyout

/-!
# The arguments that exec passes on

`exec` copies the strings of `argv` below the end of the new memory, each below the one before, and
the array that names them below the last. A new program reads them back through its own page table
(`load`): the stack pointer that `exec` leaves is that of a call `main(argc, argv)`, and what it
points to is what the old program has passed.

Addresses are counted down from the size, so that it does not matter where `sp` wraps around.
-/

namespace Xv6

open Xv6.Lib

namespace PageDir

variable {d : PageDir} {r r' : Ram} {sz sp : Word} {buf : List Byte}
  {argv : List (List Byte)} {i n off : Nat}

/-- What a user program reads at `a`. -/
def load (d : PageDir) (r : Ram) (a : Word) : Option Byte :=
  (d.place a).map fun x => (r.page x.1).byte x.2

/-- A user program finds the bytes `bs` at `a`. -/
def Finds (d : PageDir) (r : Ram) (a : Word) (bs : List Byte) : Prop :=
  ∀ k < bs.length, d.load r (a + .ofNat 32 k) = some (bs.getD k 0)

/-- The address `i` bytes below the size. -/
def below (sz : Word) (i : Nat) : Word := sz - .ofNat 32 i

theorem below_sub (sz : Word) (i n : Nat) : below sz i - .ofNat 32 n = below sz (i + n) := by
  unfold below
  rw [BitVec.ofNat_add, BitVec.sub_sub]

theorem below_add (h : n ≤ i) : below sz i + .ofNat 32 n = below sz (i - n) := by
  have hi : i = i - n + n := (Nat.sub_add_cancel h).symm
  rw [hi, ← below_sub, BitVec.sub_add_cancel, Nat.add_sub_cancel]

theorem below_inj {j : Nat} (hi : i < 2 ^ 32) (hj : j < 2 ^ 32) (h : below sz i = below sz j) :
    i = j := by
  have heq : BitVec.ofNat 32 i = .ofNat 32 j := (BitVec.sub_right_inj sz).mp h
  exact offset_inj hi hj (congrArg (sz + ·) heq)

/-- A `copyout` of `n` bytes up to `off` below the size: they are found there, and what lies above is
not touched. -/
theorem copyout_below (hd : d.Private) (hn : buf.length = n) (hfit : off + n < 2 ^ 32)
    (h : copyout r d (below sz (off + n)) buf = some (true, r')) :
    Finds d r' (below sz (off + n)) buf ∧
      ∀ i ≤ off, d.load r' (below sz i) = d.load r (below sz i) := by
  have hout := copyout_outcome d r (below sz (off + n)) buf
  rw [h] at hout
  cases hout with
  | done _ hall hw =>
    refine ⟨fun k hk => ?_, fun i hi => ?_⟩
    · obtain ⟨⟨f, o⟩, hplace⟩ := Option.ne_none_iff_exists'.mp (hall k hk)
      unfold load
      rw [hplace, Option.map_some, hw.bytes_of_noClash (hd.noClash (by omega) hall) k hk f o hplace]
    · unfold load
      cases hplace : d.place (below sz i) with
      | none => rfl
      | some x =>
        rw [Option.map_some, Option.map_some, hw.frame x.1 x.2 fun k hk h0 => ?_]
        have haddr := place_inj hd h0 hplace
        rw [below_add (by omega)] at haddr
        have := below_inj (by omega) (by omega) haddr
        omega

/-- Bytes that lie above `off` are still found when only what is below has changed. -/
theorem Finds.congr (h : Finds d r (below sz i) buf) (hle : buf.length ≤ i) (hi : i ≤ off)
    (hsame : ∀ j ≤ off, d.load r' (below sz j) = d.load r (below sz j)) :
    Finds d r' (below sz i) buf := by
  intro k hk
  rw [below_add (by omega), hsame _ (by omega), ← below_add (by omega)]
  exact h k hk

/-- `& ~3` leaves up to three bytes above the string. -/
theorem argSp_below (s : List Byte) :
    ∃ j ≤ 3, argSp (below sz off) s = below sz (off + j + (s.length + 1)) := by
  obtain ⟨h1, h2⟩ := toNat_align (below sz (off + (s.length + 1)))
  have hlt := (below sz (off + (s.length + 1))).isLt
  refine ⟨_, Nat.sub_le_iff_le_add'.mpr h2, ?_⟩
  unfold argSp
  rw [below_sub, Nat.add_right_comm, ← below_sub sz (off + (s.length + 1))]
  apply BitVec.eq_of_toNat_eq
  rw [BitVec.toNat_sub, BitVec.toNat_ofNat]
  omega

/-- The loop over `argv`, from `off` below the size. Each string is found at the address that the loop
has kept for it. -/
theorem pushArgs_finds (hd : d.Private) : ∀ (argv : List (List Byte)) (argc off : Nat)
    (r r' : Ram) (sp' : Word) (args : List Word), argc ≤ MAXARG →
    off + (argv.map fun s => s.length + 4).sum < 2 ^ 32 →
    pushArgs d argv argc r (below sz off) = some (some (r', sp', args)) →
    argc + argv.length ≤ MAXARG ∧ args.length = argv.length ∧
      (∃ off', sp' = below sz off' ∧ off ≤ off' ∧ off' ≤ off + (argv.map fun s => s.length + 4).sum ∧
        ∀ a s, (a, s) ∈ args.zip argv →
          ∃ i ≤ off', s.length < i ∧ a = below sz i ∧ Finds d r' a (s ++ [0])) ∧
      ∀ i ≤ off, d.load r' (below sz i) = d.load r (below sz i) := by
  intro argv
  induction argv with
  | nil =>
    intro argc off r r' sp' args hmax _ h
    cases h
    exact ⟨hmax, rfl, ⟨off, rfl, le_rfl, Nat.le_add_right .., nofun⟩, fun _ _ => rfl⟩
  | cons s argv ih =>
    intro argc off r r' sp' args _ hfit h
    rw [List.map_cons, List.sum_cons] at hfit
    obtain ⟨j, hj, hsp⟩ := argSp_below s
    have hlen : (s ++ [0]).length = s.length + 1 := List.length_append
    unfold pushArgs at h
    rw [hsp] at h
    by_cases hmax : MAXARG ≤ argc
    · rw [if_pos hmax] at h
      cases h
    · rw [if_neg hmax] at h
      split at h
      next => cases h
      next => cases h
      next r₁ hrun =>
        obtain ⟨hstr, hkeep⟩ := copyout_below hd hlen (by omega) hrun
        obtain ⟨o, hrest, ho⟩ := Option.map_eq_some_iff.mp h
        obtain ⟨⟨_, _, args₁⟩, rfl, hx⟩ := Option.map_eq_some_iff.mp ho
        cases hx
        obtain ⟨hargc, hl, ⟨off', hsp', h1, h2, hall⟩, hkeep'⟩ :=
          ih (argc + 1) (off + j + (s.length + 1)) r₁ r' sp' args₁ (by omega) (by omega) hrest
        rw [List.map_cons, List.sum_cons, List.length_cons, List.length_cons, hl]
        refine ⟨by omega, rfl, ⟨off', hsp', by omega, by omega, fun a s' hx => ?_⟩, fun i hi => ?_⟩
        · rcases List.mem_cons.mp hx with hx | hx
          · cases hx
            exact ⟨_, h1, by omega, rfl, hstr.congr (by omega) le_rfl hkeep'⟩
          · exact hall a s' hx
        · rw [hkeep' i (by omega), hkeep i (by omega)]

/-- A program that `exec` has started finds its arguments: at `sp` a return address, `argc` and the
address of `argv`, which begins three words above `sp`. The entries of `argv` are `argc` addresses and
a zero, and at each address is the caller's string with its final zero. -/
theorem exec_passes_arguments (hd : d.Private) (hfit : stackBytes argv < 2 ^ 32)
    (h : execStack d r sz argv = some (some (r', sp))) :
    argv.length ≤ MAXARG ∧ ∃ args : List Word, args.length = argv.length ∧
      Finds d r' sp (([0xffffffff, .ofNat 32 argv.length, sp + 12] ++ args ++ [0] : List Word).flatMap
        Word.bytes) ∧
      ∀ a s, (a, s) ∈ args.zip argv → Finds d r' a (s ++ [0]) := by
  unfold stackBytes at hfit
  have hzero : sz = below sz 0 := (BitVec.sub_zero sz).symm
  unfold execStack at h
  split at h
  next => cases h
  next => cases h
  next r₁ sp₁ args hpush =>
    rw [hzero] at hpush
    obtain ⟨hargc, hl, ⟨off, rfl, -, hoff, hall⟩, -⟩ :=
      pushArgs_finds hd argv 0 0 r r₁ sp₁ args (Nat.zero_le _) (by omega) hpush
    dsimp only at h
    rw [below_sub, below_sub] at h
    split at h
    next => cases h
    next => cases h
    next r₂ hrun =>
      cases h
      have hargvp : below sz (off + (3 + argv.length + 1) * 4) + 12 =
          below sz (off + (argv.length + 1) * 4) := by
        rw [show (12 : Word) = .ofNat 32 12 from rfl, below_add (by omega)]
        congr 1
        omega
      rw [hargvp]
      obtain ⟨hstack, hkeep⟩ := copyout_below hd (by
        rw [length_bytes, List.length_append, List.length_append, hl]
        exact Nat.mul_comm 4 _) (by omega) hrun
      refine ⟨by omega, args, hl, hstack, fun a s hx => ?_⟩
      obtain ⟨i, hi, hpos, rfl, hfinds⟩ := hall a s hx
      exact hfinds.congr (by rw [List.length_append]; exact hpos) hi hkeep

theorem exec_passes_arguments_ab : ∃ r' sp a,
    execStack threePages ⟨fun _ => Bytes.zero, []⟩ 12288 [[97, 98]] = some (some (r', sp)) ∧
      Finds threePages r' a [97, 98, 0] := by
  have hrun : (execStack threePages ⟨fun _ => Bytes.zero, []⟩ 12288 [[97, 98]]).any
      Option.isSome := by
    decide +kernel
  obtain ⟨o, ho, hsome⟩ := (Option.any_eq_true _ _).mp hrun
  obtain ⟨⟨r', sp⟩, rfl⟩ := Option.isSome_iff_exists.mp hsome
  obtain ⟨-, args, hl, -, hall⟩ := exec_passes_arguments threePages_private (by decide) ho
  obtain ⟨a, rfl⟩ := List.length_eq_one_iff.mp hl
  exact ⟨r', sp, a, ho, hall a [97, 98] (List.mem_singleton_self _)⟩

end PageDir

end Xv6
