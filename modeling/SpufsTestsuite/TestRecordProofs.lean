import SpufsTestsuite.CStringProofs

/-! # The test record — creation, configuration fields and verdicts

    `struct test` and the functions of `bin/test.c` that only touch the record:
    `test_create`, `test_header`, `test_pass`, `test_fail` and `test_skip`.
    Each verdict sets `result` and returns what it prints; reading or writing
    outside of an allocation has no result (`none`).

    A required capability is stored as the pointer the parser hands over: an
    index into the local buffer of `test_read_config`. -/

namespace SpufsTest

open CString

/-- `TEST_TYPE_TEST` and `TEST_TYPE_BENCHMARK`. -/
inductive TestType where
  | test
  | benchmark
  deriving DecidableEq, Repr

/-- `TEST_NOTRUN`, `TEST_PASSED`, `TEST_FAILED` and `TEST_SKIPPED`. -/
inductive TestResult where
  | notrun
  | passed
  | failed
  | skipped
  deriving DecidableEq, Repr

/-- `struct required_cap`: a pointer to the capability's name, and whether the
    requirement is inverted. -/
structure RequiredCap where
  cap    : Nat
  invert : Bool
  deriving DecidableEq, Repr

/-- `test->run`. -/
structure Run where
  stdoutFd : Int
  pid      : Int
  deriving DecidableEq, Repr

/-- `test->output`: the capture buffer (`none` for a null pointer, else all
    bytes of the allocation), the bytes captured so far, and the size. -/
structure Output where
  buf     : Option Bytes
  len     : Nat
  bufsize : Nat
  deriving DecidableEq, Repr

/-- `struct test`. -/
structure Test where
  type         : TestType
  path         : Bytes
  expectedRc   : Int
  expectedSig  : Int
  timeout      : Int
  disabled     : Bool
  ignored      : Bool
  capsRequired : List RequiredCap
  run          : Run
  output       : Output
  result       : TestResult
  deriving DecidableEq, Repr

/-- `DEFAULT_TEST_TIMEOUT`. -/
def defaultTestTimeout : Int := 10

/-- `DEFAULT_BENCHMARK_TIMEOUT`: give benchmarks more time to run. -/
def defaultBenchmarkTimeout : Int := 60

/-- `test_create`.  The record's `run.pid` is not initialised by the source;
    it is not read before `fork` has set it. -/
def testCreate (path : Bytes) (type : TestType) : Test where
  type := type
  path := path
  expectedRc := 0
  expectedSig := 0
  timeout := match type with
    | .benchmark => defaultBenchmarkTimeout
    | .test => defaultTestTimeout
  disabled := false
  ignored := false
  capsRequired := []
  run := { stdoutFd := -1, pid := 0 }
  output := { buf := none, len := 0, bufsize := 0 }
  result := .notrun

/-- `test_add_required_cap`. -/
def testAddRequiredCap (t : Test) (cap : Nat) (invert : Bool) : Test :=
  { t with capsRequired := t.capsRequired ++ [⟨cap, invert⟩] }

/-- `test_header`: `printf("%-50s", test->path)`. -/
def testHeader (t : Test) : Bytes :=
  t.path ++ List.replicate (50 - t.path.length) 32

/-! ## `test_pass` -/

/-- `strnlen`: reads at most `n` bytes. -/
def strnlen : Bytes → Nat → Option Nat
  | _, 0 => some 0
  | [], _ + 1 => none
  | b :: m, n + 1 => if b = 0 then some 0 else (strnlen m n).map (· + 1)

/-- `talloc_strndup`: a copy of at most `n` bytes, with a NUL behind them. -/
def tallocStrndup (m : Bytes) (n : Nat) : Option Bytes :=
  (strnlen m n).map (fun k => m.take k ++ [0])

/-- `while (isspace(result_time[end])) { result_time[end] = 0; end--; }`,
    on the copy itself: the argument is one more than the index it starts at,
    so that running below the allocation is the case `0`. -/
def clearTrailing (m : Bytes) : Nat → Option Bytes
  | 0 => none
  | k + 1 =>
      match m[k]? with
      | none => none
      | some b => if isspace b then clearTrailing (m.set k 0) k else some m

/-- The result line of a benchmark, from its captured output. -/
def benchmarkLine (o : Output) : Option Bytes := do
  let buf ← o.buf
  let copy ← tallocStrndup buf (o.len + 1)
  let i ← spanLen isspace copy
  if i + o.len < copy.length then
    let copy ← clearTrailing (copy.set (i + o.len) 0) (i + o.len)
    cstr (copy.drop i)
  else none

/-- `test_pass`. -/
def testPass (t : Test) : Option (Test × Bytes) :=
  match t.type with
  | .test => some ({ t with result := .passed }, str "PASS\n")
  | .benchmark =>
      (benchmarkLine t.output).map
        (fun line => ({ t with result := .passed }, line ++ str "\n"))

/-! ## `test_fail` and `test_skip` -/

/-- What `test_fail` prints of the captured output. -/
def failOutput (o : Output) : Option Bytes :=
  if o.len = 0 then some []
  else
    match o.buf with
    | none => none
    | some buf =>
        if o.len ≤ buf.length then
          some (str "test output:\n" ++ buf.take o.len)
        else none

/-- `test_fail`, with its message already formatted. -/
def testFail (t : Test) (msg : Bytes) : Option (Test × Bytes) :=
  (failOutput t.output).map (fun out =>
    ({ t with result := .failed }, str "FAIL    (" ++ msg ++ str ")\n" ++ out))

/-- `test_skip`, with its message already formatted. -/
def testSkip (t : Test) (msg : Bytes) : Test × Bytes :=
  ({ t with result := .skipped }, str "SKIPPED (" ++ msg ++ str ")\n")

/-- A pass that returns marks the test passed and changes nothing else. -/
theorem testPass_record {t t' : Test} {out : Bytes}
    (h : testPass t = some (t', out)) : t' = { t with result := .passed } := by
  rw [testPass] at h
  cases hty : t.type with
  | test =>
      rw [hty] at h
      exact ((Prod.mk.inj (Option.some.inj h)).1).symm
  | benchmark =>
      rw [hty] at h
      obtain ⟨line, -, hl⟩ := Option.map_eq_some_iff.mp h
      exact ((Prod.mk.inj hl).1).symm

/-- A failure that returns marks the test failed and changes nothing else. -/
theorem testFail_record {t t' : Test} {msg out : Bytes}
    (h : testFail t msg = some (t', out)) :
    t' = { t with result := .failed } := by
  obtain ⟨o, -, ho⟩ := Option.map_eq_some_iff.mp h
  exact ((Prod.mk.inj ho).1).symm

end SpufsTest
