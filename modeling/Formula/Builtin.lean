/-! The operations that need no host: functions of one and two numbers, access to vectors, and
statistics of vectors. -/
namespace Formula

/-- Functions of one number. -/
inductive Unary where
  | plus | negate | abs | round | floor | ceil | sqrt
  | exp | log | log2 | log10
  | sin | cos | tan | asin | acos | atan
deriving DecidableEq, Repr

/-- Functions of two numbers. -/
inductive Binary where
  | add | subtract | multiply | divide | remainder | power | logBase | atan2
deriving DecidableEq, Repr

/-- Functions of a vector of numbers. -/
inductive Statistic where
  | sum | mean | variance | deviation | error
deriving DecidableEq, Repr

inductive Builtin where
  | unary (f : Unary)
  | binary (f : Binary)
  | index
  | length
  | first
  | product
  | statistic (f : Statistic)
deriving DecidableEq, Repr

end Formula
