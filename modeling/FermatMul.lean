import FermatMul.Main
import FermatMul.Proofs.Bezout.Inverse
import FermatMul.Proofs.Bezout.Minimal
import FermatMul.Proofs.CommandLine.Abbreviation
import FermatMul.Proofs.CommandLine.Divisors
import FermatMul.Proofs.Fourier.Bijection
import FermatMul.Proofs.Fourier.Convolution
import FermatMul.Proofs.Fourier.DirectSums
import FermatMul.Proofs.Fourier.Exchanges
import FermatMul.Proofs.Fourier.Stages
import FermatMul.Proofs.Plan.Selection
import FermatMul.Proofs.Product.Accumulation
import FermatMul.Proofs.Product.Events
import FermatMul.Proofs.Product.PackedFields
import FermatMul.Proofs.Product.Pruning
import FermatMul.Proofs.Product.Symmetry
import FermatMul.Proofs.Residue.Difference
import FermatMul.Proofs.Residue.EndAround
import FermatMul.Proofs.Residue.Multiplication
import FermatMul.Proofs.Residue.NormalForm
import FermatMul.Proofs.Residue.Rotation
import FermatMul.Proofs.Residue.Sequence
import FermatMul.Proofs.Words.Chunks
