import B2.Passes.FoldConstants

/-!
# Raw block passes

`ConvertLiteralPrintBlockToRawBlockPass` and `CoalesceRawBlocksPass`, and the
passes `optimizeAST` runs. A `std::stringstream` writes a double like `%g`, six
significant digits without trailing zeros (`Double.streamed`).
-/

namespace B2

namespace Double

/-- The first six significant digits of `n / d` as a number, and the exponent of the first. -/
def significant (n d : Nat) : Nat × Int :=
  let above : Int := (decimal n).length - (decimal d).length
  let reached := if 0 ≤ above then d * 10 ^ above.toNat ≤ n else d ≤ n * 10 ^ (-above).toNat
  let e := if reached then above else above - 1
  let m := if e ≤ 5 then roundHalfEven (n * 10 ^ (5 - e).toNat) d
    else roundHalfEven n (d * 10 ^ (e - 5).toNat)
  if m = 10 ^ 6 then (10 ^ 5, e + 1) else (m, e)

/-- Digits with a point after the first `n`, without trailing zeros and a final point. -/
def pointAfter (n : Nat) (digits : Text) : Text :=
  let fraction := (digits.drop n).reverse.dropWhile (· = '0') |>.reverse
  if fraction = [] then digits.take n else digits.take n ++ '.' :: fraction

/-- A double written to a `std::ostream` with its default format. -/
def streamed : Double → Text
  | .nan => "nan".toList
  | .infinite s => (if s then "-inf" else "inf").toList
  | .finite s m e _ =>
    let t := scaled m 1 (-e)
    let digits := significant t.1 t.2
    let exponent := digits.2
    let unsigned :=
      if m = 0 then ['0']
      else if exponent < -4 ∨ 6 ≤ exponent then
        let power := decimal exponent.natAbs
        pointAfter 1 (decimal digits.1) ++ 'e' :: (if exponent < 0 then '-' else '+') ::
          (List.replicate (2 - power.length) '0' ++ power)
      else if exponent < 0 then
        pointAfter 1 (List.replicate (-exponent).toNat '0' ++ decimal digits.1)
      else pointAfter (exponent.toNat + 1) (decimal digits.1)
    if s then '-' :: unsigned else unsigned

end Double

/-- `createFormattedRawBlock`, from what the stream holds. -/
def createFormattedRawBlock (stream : Text) : AST := .rawBlock (cString stream)

/-- `process_node(PrintBlockAST*)` of `ConvertLiteralPrintBlockToRawBlockPass`. -/
def convertLiteralPrintBlock : Expression → AST
  | .doubleLiteral v => createFormattedRawBlock v.streamed
  | .integerLiteral v => createFormattedRawBlock (decimalInt v.toInt)
  | .booleanLiteral v => createFormattedRawBlock (if v then "true" else "false").toList
  | .stringLiteral v => .rawBlock v
  | e => .printBlock e

def convertLiteralPrintBlockToRawBlockPass : ASTPass where
  processNode _
    | .printBlock e => return convertLiteralPrintBlock e
    | a => return a

/-- The text of a raw block, of which the pass gathers a run. -/
def rawText? : AST → Option Text
  | .rawBlock t => some t
  | _ => none

/-- The loop of `CoalesceRawBlocksPass`: every run of raw blocks becomes one. -/
def coalesceRawBlocks : List AST → List AST
  | [] => []
  | .rawBlock t :: l =>
    let strings := (l.takeWhile fun s => (rawText? s).isSome).filterMap rawText?
    .rawBlock (t ++ strings.flatten) ::
      coalesceRawBlocks (l.dropWhile fun s => (rawText? s).isSome)
  | s :: l => s :: coalesceRawBlocks l
termination_by l => l.length
decreasing_by
  · exact Nat.lt_succ_of_le (List.dropWhile_sublist _).length_le
  · exact Nat.lt_succ_self l.length

def coalesceRawBlocksPass : ASTPass where
  processNode _
    | .statements l => return .statements (coalesceRawBlocks l)
    | a => return a

end B2
