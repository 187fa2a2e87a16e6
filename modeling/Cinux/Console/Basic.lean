import Cinux.Ring.Counters
import Cinux.System.Machine

/-!
# The console

The input side of `console.c`.  The interrupt handler `consoleintr` stores the characters that are
typed into a ring, with erase and kill processing; `consoleread` takes from it what has been
committed by a newline, by control-D or because the ring was full.  The three indices are 32-bit
counters that are never reset: `r <= w <= e`, with the edited line between `w` and `e`.

`cons.lock` makes every run of the handler one step, and every run of `consoleread` up to the point
where it sleeps or returns.  The echo on the screen is left out.
-/

namespace Cinux

/-- The size of the ring. -/
def INPUT_BUF_SIZE : ℕ := 128

instance : NeZero INPUT_BUF_SIZE := ⟨by decide⟩

/-- `cons`. -/
structure Cons where
  buf : Fin INPUT_BUF_SIZE → UInt8
  /-- Read index. -/
  r : ℕ
  /-- Write index. -/
  w : ℕ
  /-- Edit index. -/
  e : ℕ

/-- What a section of `consoleread` comes to: the bytes that it copies out, whether it takes a
control-D, and what it returns, if it does not sleep. -/
structure ReadOut where
  bytes : List UInt8
  eof : Bool
  ret : Option ℤ
  deriving DecidableEq

/-- What a section of `consoleread` meets: whether the process is killed, and whether the copy
to the caller succeeds when so many bytes are left. -/
structure ReadEnv where
  killed : Bool
  copyout : ℕ → Bool

/-- A `uint` less one. -/
def pred32 (k : ℕ) : ℕ := if k = 0 then 2 ^ 32 - 1 else k - 1

namespace Cons

/-- `cons.e--`. -/
def eraseLast (s : Cons) : Cons := { s with e := pred32 s.e }

/-- The loop of control-U, which takes at most `e - w` rounds. -/
def killLoop : ℕ → Cons → Cons
  | 0, s => s
  | k + 1, s =>
    if s.e ≠ s.w ∧ s.buf (slot INPUT_BUF_SIZE (pred32 s.e)) ≠ 10 then
      killLoop k s.eraseLast
    else s

/-- `cons.buf[cons.e++ % INPUT_BUF_SIZE] = c`. -/
def store (s : Cons) (c : UInt8) : Cons :=
  { s with
    buf := Function.update s.buf (slot INPUT_BUF_SIZE s.e) c
    e := (s.e + 1) % 2 ^ 32 }

/-- `consoleintr`. -/
def consoleintr (s : Cons) (c : UInt8) : Cons :=
  -- control-P prints the processes
  if c = 16 then s
  else if c = 21 then killLoop (gap (2 ^ 32) s.w s.e) s
  else if c = 8 ∨ c = 127 then if s.e ≠ s.w then s.eraseLast else s
  else if c ≠ 0 ∧ gap (2 ^ 32) s.r s.e < INPUT_BUF_SIZE then
    let c := if c = 13 then 10 else c
    let s := s.store c
    if c = 10 ∨ c = 4 ∨ gap (2 ^ 32) s.r s.e = INPUT_BUF_SIZE then { s with w := s.e } else s
  else s

/-- The loop of `consoleread` with `n` bytes left of `target`, until it sleeps or ends. -/
def readLoop (x : ReadEnv) (target : ℕ) : ℕ → Cons → ReadOut × Cons
  | 0, s => (⟨[], false, some target⟩, s)
  | n + 1, s =>
    if s.r = s.w then (⟨[], false, if x.killed then some (-1) else none⟩, s)
    else
      let c := s.buf (slot INPUT_BUF_SIZE s.r)
      let s := { s with r := (s.r + 1) % 2 ^ 32 }
      if c = 4 then
        -- control-D is saved for the next call if there are bytes for this one
        if n + 1 < target then
          (⟨[], false, some (target - (n + 1))⟩, { s with r := pred32 s.r })
        else (⟨[], true, some (target - (n + 1))⟩, s)
      else if x.copyout (n + 1) = false then (⟨[], false, some (target - (n + 1))⟩, s)
      else if c = 10 then (⟨[c], false, some (target - n)⟩, s)
      else
        let (o, s) := readLoop x target n s
        ({ o with bytes := c :: o.bytes }, s)

/-- The empty ring. -/
def boot : Cons := ⟨fun _ => 0, 0, 0, 0⟩

end Cons

/-- A call of `consoleread` that sleeps: its argument, the bytes left, and the bytes it has copied
out. -/
structure ReadCall where
  target : ℕ
  left : ℕ
  got : List UInt8

/-- The call after a section, if it has not returned. -/
def ReadOut.next (o : ReadOut) (k : ReadCall) : Option ReadCall :=
  match o.ret with
  | none => some ⟨k.target, k.left - o.bytes.length, k.got ++ o.bytes⟩
  | some _ => none

/-- A call `consoleread(n)` when it starts. -/
def ReadCall.start (n : ℤ) : ReadCall := ⟨n.toNat, n.toNat, []⟩

/-- The steps of the console, with what `consoleread` gives. -/
inductive ConsAct (P : Type) where
  /-- `consoleintr`. -/
  | intr (c : UInt8)
  /-- A call of `consoleread` up to its first `sleep` or its end. -/
  | read (p : P) (n : ℤ) (x : ReadEnv) (o : ReadOut)
  /-- A call that goes on. -/
  | resume (p : P) (x : ReadEnv) (o : ReadOut)

/-- The ring and the calls in progress. -/
structure Console (P : Type) where
  cons : Cons
  call : P → Option ReadCall

namespace Console

variable {P : Type} [DecidableEq P]

/-- The steps. -/
inductive Step : Console P → ConsAct P → Console P → Prop
  | intr {s c} : Step s (.intr c) { s with cons := s.cons.consoleintr c }
  | read {s p n x o c} : s.call p = none →
      s.cons.readLoop x (ReadCall.start n).target (ReadCall.start n).left = (o, c) →
      Step s (.read p n x o) ⟨c, Function.update s.call p (o.next (.start n))⟩
  | resume {s p k x o c} : s.call p = some k → s.cons.readLoop x k.target k.left = (o, c) →
      Step s (.resume p x o) ⟨c, Function.update s.call p (o.next k)⟩

/-- The console from boot on. -/
def console (P : Type) [DecidableEq P] : Machine (Console P) (ConsAct P) where
  init s := s = ⟨Cons.boot, fun _ => none⟩
  step := Step

end Console

end Cinux
